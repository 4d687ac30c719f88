import UnusedImports.Proofs.Text.Lines
import UnusedImports.Proofs.Text.Utf8

/-!
Lines and columns by counting. The line of an offset is told by the line feeds among the bytes
before it, and the column by the characters since the last of them. The index finds both by the
offsets at which lines start, so that the two agree is what is shown here: for the bytes of the
text as they are written, and for every offset, the end of the text and what lies past it
included. Looking for the line by halving the table of these offsets finds the same one.
-/
namespace UnusedImports

namespace Text

section Bytes

variable {text part : List Char} {start : Nat}

/-- A line feed is written as itself, and no other character has its byte. -/
theorem count_utf8EncodeChar (c : Char) :
    (String.utf8EncodeChar c).count 10 = if c = '\n' then 1 else 0 := by
  by_cases hfeed : c = '\n'
  · subst hfeed
    rfl
  rw [if_neg hfeed, List.count_eq_zero]
  have hcode : c.val.toNat ≠ 10 := fun hcode =>
    hfeed (Char.ext (UInt32.toNat_inj.mp hcode))
  -- Only a code point below 128 is its own byte; the bytes of longer forms are 128 or more.
  have hbytes : ∀ codes : List Nat, (∀ code ∈ codes, code < 256 ∧ code ≠ 10) →
      (10 : UInt8) ∉ codes.map UInt8.ofNat := by
    intro codes hcodes hmem
    obtain ⟨code, hcode, heq⟩ := List.mem_map.mp hmem
    obtain ⟨hlt, hne⟩ := hcodes code hcode
    have hsame := congrArg UInt8.toNat heq
    rw [UInt8.toNat_ofNat', Nat.mod_eq_of_lt hlt] at hsame
    exact hne hsame
  have hvalid : c.val.toNat.isValidChar := c.valid
  unfold Nat.isValidChar at hvalid
  rw [String.utf8EncodeChar]
  split
  · exact hbytes [_] (by simp only [List.forall_mem_singleton]; omega)
  · split
    · exact hbytes [_, _] (by simp; omega)
    · split
      · exact hbytes [_, _, _] (by simp; omega)
      · exact hbytes [_, _, _, _] (by simp; omega)

theorem count_flatMap (text : List Char) :
    (text.flatMap String.utf8EncodeChar).count 10 = text.count '\n' := by
  induction text with
  | nil => rfl
  | cons c rest ih =>
    rw [List.flatMap_cons, List.count_append, count_utf8EncodeChar, ih, List.count_cons,
      Nat.add_comm]
    simp

theorem length_flatMap (text : List Char) :
    (text.flatMap String.utf8EncodeChar).length = byteLength text := by
  induction text with
  | nil => rfl
  | cons c rest ih =>
    rw [List.flatMap_cons, List.length_append, String.length_utf8EncodeChar, ih, byteLength]

/-- Where the byte of a line feed is, a line feed starts. -/
theorem charAt?_of_feed {offset : Nat}
    (h : (text.flatMap String.utf8EncodeChar)[offset]? = some 10) :
    charAt? offset text = some '\n' := by
  induction text generalizing offset with
  | nil => simp at h
  | cons c rest ih =>
    have hsize : (String.utf8EncodeChar c).length = c.utf8Size := String.length_utf8EncodeChar c
    rw [List.flatMap_cons] at h
    rw [charAt?]
    by_cases hinside : offset < c.utf8Size
    · rw [List.getElem?_append_left (by omega)] at h
      have hpositive := List.count_pos_iff.mpr (List.mem_of_getElem? h)
      rw [count_utf8EncodeChar] at hpositive
      split at hpositive
      · rename_i hfeed
        have hone : ('\n').utf8Size = 1 := rfl
        rw [hfeed] at hinside
        rw [if_pos (by omega), hfeed]
      · omega
    · have hpositive := c.utf8Size_pos
      rw [List.getElem?_append_right (by omega), hsize] at h
      rw [if_neg (by omega), if_neg hinside]
      exact ih h

/-- What stands in a text is written at the offset where it stands. -/
theorem Stands.slice_flatMap (h : Stands text part start) :
    (Extent.mk start (start + byteLength part)).slice (text.flatMap String.utf8EncodeChar) =
      part.flatMap String.utf8EncodeChar := by
  obtain ⟨before, after, rfl, rfl⟩ := h
  rw [Extent.slice, List.flatMap_append, List.flatMap_append, ← length_flatMap before,
    List.drop_left, length_flatMap, Nat.add_sub_cancel_left, ← length_flatMap part,
    List.take_left]

end Bytes

end Text

namespace Line

open Text

/-- A text has one line more than it has line feeds. -/
theorem length_split (text : List Char) : (split text).length = text.count '\n' + 1 := by
  induction text with
  | nil => rfl
  | cons c rest ih =>
    by_cases hc : c = '\n'
    · rw [split, if_pos hc, List.length_cons, ih, hc, List.count_cons_self]
    · rw [split, if_neg hc, List.count_cons_of_ne hc, ← ih]
      cases hsplit : split rest with
      | nil => exact absurd hsplit (split_ne_nil rest)
      | cons line lines => rfl

/-- Lines that are placed past an offset do not start before it. -/
theorem takeWhile_place_eq_nil {start offset : Nat} (h : offset < start)
    (texts : List (List Char)) :
    (place start texts).takeWhile (fun line => decide (line.start ≤ offset)) = [] := by
  cases texts with
  | nil => rfl
  | cons text texts => exact List.takeWhile_cons_of_neg (by simpa using h)

/-- As many lines start up to an offset as line feeds are written before it, and the first one
besides. -/
theorem length_takeWhile_place {start offset : Nat} (h : start ≤ offset) (text : List Char) :
    ((place start (split text)).takeWhile fun line => decide (line.start ≤ offset)).length =
      ((text.flatMap String.utf8EncodeChar).take (offset - start)).count 10 + 1 := by
  induction text generalizing start with
  | nil => simp [split, place, h]
  | cons c rest ih =>
    have hsize : (String.utf8EncodeChar c).length = c.utf8Size := String.length_utf8EncodeChar c
    rw [List.flatMap_cons]
    by_cases hpast : offset < start + c.utf8Size
    · -- The offset is in the first character, and only the first line starts up to there.
      obtain ⟨line, lines, hlines, hline⟩ : ∃ line lines,
          split (c :: rest) = line :: lines ∧ c.utf8Size ≤ byteLength line := by
        rw [split]
        split
        · exact ⟨_, _, rfl, Nat.le_add_right _ _⟩
        · split
          · exact ⟨_, _, rfl, Nat.le_add_right _ _⟩
          · exact ⟨_, _, rfl, Nat.le_add_right _ _⟩
      have hnone : (((String.utf8EncodeChar c) ++ rest.flatMap String.utf8EncodeChar).take
          (offset - start)).count 10 = 0 := by
        rw [List.take_append_of_le_length (by omega), List.count_eq_zero]
        intro hfeed
        have hcount := count_utf8EncodeChar c
        have hpositive := List.count_pos_iff.mpr (List.mem_of_mem_take hfeed)
        split at hcount
        · rename_i hc
          subst hc
          have hzero : offset - start = 0 := by
            have hone : ('\n').utf8Size = 1 := rfl
            omega
          rw [hzero] at hfeed
          simp at hfeed
        · omega
      rw [hlines, place, List.takeWhile_cons_of_pos (by simpa using h), List.length_cons,
        takeWhile_place_eq_nil (by omega), hnone]
      rfl
    · have hle : start + c.utf8Size ≤ offset := Nat.le_of_not_lt hpast
      have hcount : ((String.utf8EncodeChar c ++ rest.flatMap String.utf8EncodeChar).take
          (offset - start)).count 10 = (if c = '\n' then 1 else 0) +
            ((rest.flatMap String.utf8EncodeChar).take
              (offset - (start + c.utf8Size))).count 10 := by
        rw [List.take_append, List.take_of_length_le (by omega), List.count_append,
          count_utf8EncodeChar, hsize, Nat.sub_sub]
      rw [hcount]
      have hrest := ih hle
      by_cases hc : c = '\n'
      · subst hc
        rw [split, if_pos rfl, place, List.takeWhile_cons_of_pos (by simpa using h),
          List.length_cons, if_pos rfl, Nat.add_comm 1, ← hrest]
        rfl
      · rw [split, if_neg hc, if_neg hc, Nat.zero_add, ← hrest]
        cases hsplit : split rest with
        | nil => exact absurd hsplit (split_ne_nil rest)
        | cons line lines =>
          rw [place, place, List.takeWhile_cons_of_pos (by simpa using h),
            List.takeWhile_cons_of_pos (by simpa using hle), List.length_cons, List.length_cons,
            byteLength, Nat.add_assoc]

theorem le_start_of_mem_place {start : Nat} {texts : List (List Char)} {line : Line}
    (h : line ∈ place start texts) : start ≤ line.start := by
  induction texts generalizing start with
  | nil => simp [place] at h
  | cons text texts ih =>
    rcases List.mem_cons.mp h with rfl | hrest
    · exact Nat.le_refl _
    · exact Nat.le_trans (Nat.le_add_right _ _) (ih hrest)

/-- A line that is followed by another one is not empty, so lines start one after the other. -/
theorem pairwise_place (start : Nat) (text : List Char) :
    (place start (split text)).Pairwise fun first second => first.start < second.start := by
  induction text generalizing start with
  | nil => simp [split, place]
  | cons c rest ih =>
    rw [split]
    split
    · refine List.pairwise_cons.mpr ⟨fun line hline => ?_, ih _⟩
      exact Nat.lt_of_lt_of_le (Nat.lt_add_of_pos_right (Nat.add_pos_left c.utf8Size_pos _))
        (le_start_of_mem_place hline)
    · have hrest := ih (start + c.utf8Size)
      split
      · rename_i line lines hsplit
        rw [hsplit, place, List.pairwise_cons] at hrest
        obtain ⟨hlines, hpairs⟩ := hrest
        rw [Nat.add_assoc] at hlines hpairs
        refine List.pairwise_cons.mpr ⟨fun later hlater => ?_, hpairs⟩
        exact Nat.lt_of_le_of_lt (Nat.le_add_right _ _) (hlines later hlater)
      · simp [place]

/-- What follows the last line feed before an offset starts the line of the offset. -/
theorem getElem?_place {lines tail : List Char} (hfeed : '\n' ∉ tail)
    (hlines : lines = [] ∨ lines.getLast? = some '\n') (start : Nat) (after : List Char) :
    ∃ more, (place start (split (lines ++ (tail ++ after))))[lines.count '\n']? =
      some ⟨start + byteLength lines, tail ++ more⟩ := by
  induction lines generalizing start with
  | nil =>
    clear hlines
    induction tail generalizing start with
    | nil =>
      cases hsplit : split after with
      | nil => exact absurd hsplit (split_ne_nil after)
      | cons line texts => exact ⟨line, by simp [hsplit, place, byteLength]⟩
    | cons c rest ih =>
      obtain ⟨hc, hrest⟩ : c ≠ '\n' ∧ '\n' ∉ rest := by simpa [eq_comm] using hfeed
      obtain ⟨more, hmore⟩ := ih hrest start
      refine ⟨more, ?_⟩
      rw [List.nil_append] at hmore ⊢
      rw [List.cons_append, split, if_neg hc]
      cases hsplit : split (rest ++ after) with
      | nil => exact absurd hsplit (split_ne_nil _)
      | cons line texts =>
        rw [hsplit] at hmore
        simpa [place, byteLength] using hmore
  | cons c rest ih =>
    rcases hlines with hnil | hlast
    · exact absurd hnil (List.cons_ne_nil c rest)
    by_cases hc : c = '\n'
    · subst hc
      have hrest : rest = [] ∨ rest.getLast? = some '\n' := by
        cases rest with
        | nil => exact Or.inl rfl
        | cons d rest => exact Or.inr (by simpa using hlast)
      obtain ⟨more, hmore⟩ := ih hrest (start + 1)
      refine ⟨more, ?_⟩
      rw [List.cons_append, split, if_pos rfl, place, List.count_cons_self, List.getElem?_cons_succ]
      rw [Nat.add_assoc] at hmore
      exact hmore
    · have hrest : rest.getLast? = some '\n' := by
        cases rest with
        | nil => simp [hc] at hlast
        | cons d rest => simpa using hlast
      obtain ⟨number, hnumber⟩ : ∃ number, rest.count '\n' = number + 1 :=
        ⟨_, (Nat.succ_pred_eq_of_pos
          (List.count_pos_iff.mpr (List.mem_of_getLast? hrest))).symm⟩
      obtain ⟨more, hmore⟩ := ih (Or.inr hrest) (start + c.utf8Size)
      refine ⟨more, ?_⟩
      rw [List.cons_append, split, if_neg hc, List.count_cons_of_ne hc]
      cases hsplit : split (rest ++ (tail ++ after)) with
      | nil => exact absurd hsplit (split_ne_nil _)
      | cons line texts =>
        rw [hsplit, hnumber, place, List.getElem?_cons_succ] at hmore
        rw [hnumber, place, List.getElem?_cons_succ, byteLength, byteLength, ← Nat.add_assoc,
          ← Nat.add_assoc]
        exact hmore

end Line

namespace LineIndex

open Text

/-- The line of an offset is told by the line feeds among the bytes before it. -/
theorem lineOf_eq_count (text : List Char) (offset : Nat) :
    (ofText text).lineOf offset =
      ((text.flatMap String.utf8EncodeChar).take offset).count 10 := by
  have hlength := Line.length_takeWhile_place (Nat.zero_le offset) text
  rw [Nat.sub_zero] at hlength
  rw [lineOf, ofText, hlength, Nat.add_sub_cancel]

theorem lineCount_eq_count (text : List Char) :
    (ofText text).lineCount = (text.flatMap String.utf8EncodeChar).count 10 + 1 := by
  have htexts : (ofText text).lines.map Line.text = Line.split text := Line.map_text_place 0 _
  rw [lineCount, ← List.length_map Line.text, htexts, Line.length_split, count_flatMap]

/-- The numbers of a table up to a value, where it is known which they are. -/
theorem length_takeWhile_le {table : List Nat} {value count : Nat} (hcount : count ≤ table.length)
    (hbefore : ∀ i found, i < count → table[i]? = some found → found ≤ value)
    (hafter : ∀ i found, count ≤ i → table[i]? = some found → value < found) :
    (table.takeWhile (· ≤ value)).length = count := by
  have hfirst : ∀ found ∈ table.take count, decide (found ≤ value) = true := by
    intro found hfound
    obtain ⟨i, hi, rfl⟩ := List.getElem_of_mem hfound
    rw [List.length_take, Nat.min_eq_left hcount] at hi
    exact decide_eq_true (hbefore i _ hi (by simp))
  have hrest : (table.drop count).takeWhile (· ≤ value) = [] := by
    cases hdrop : table.drop count with
    | nil => rfl
    | cons found rest =>
      have hfound : table[count]? = some found := by
        rw [← List.head?_drop, hdrop, List.head?_cons]
      have hlt := hafter count found (Nat.le_refl _) hfound
      exact List.takeWhile_cons_of_neg (by simpa using hlt)
  rw [← List.take_append_drop count table, List.takeWhile_append_of_pos hfirst, hrest,
    List.append_nil, List.length_take, Nat.min_eq_left hcount]

/-- What stands before the part that is left is smaller, and what stands behind it is greater. -/
theorem length_takeWhile_of_search {table : List Nat} (htable : table.Pairwise (· < ·))
    {value low high : Nat} (hlow : low ≤ high) (hhigh : high ≤ table.length)
    (hbefore : ∀ i found, i < low → table[i]? = some found → found < value)
    (hafter : ∀ i found, high ≤ i → table[i]? = some found → value < found) :
    (table.takeWhile (· ≤ value)).length =
      match search table value low high with
      | .ok i => i + 1
      | .error next => next := by
  have hascends : ∀ {i j : Nat} {first second : Nat}, i < j → table[i]? = some first →
      table[j]? = some second → first < second := by
    intro i j first second hlt hfirst hsecond
    obtain ⟨hi, rfl⟩ := List.getElem?_eq_some_iff.mp hfirst
    obtain ⟨hj, rfl⟩ := List.getElem?_eq_some_iff.mp hsecond
    exact List.pairwise_iff_getElem.mp htable i j hi hj hlt
  have hgiven : ∀ i, i < table.length → table[i]? = some (table[i]?.getD 0) := by
    intro i hi
    rw [List.getElem?_eq_getElem hi, Option.getD_some]
  fun_induction search table value low high with
  | case1 low high hlt middle found hfound =>
    have hmiddle : table[middle]? = some value := by
      rw [← hfound]
      exact hgiven middle (by omega)
    have hcount : middle + 1 ≤ table.length := by omega
    refine length_takeWhile_le hcount (fun i other hi hother => ?_)
      fun i other hi hother => hascends hi hmiddle hother
    rcases Nat.lt_or_eq_of_le (Nat.le_of_lt_succ hi) with hless | rfl
    · exact Nat.le_of_lt (hascends hless hother hmiddle)
    · exact Nat.le_of_eq (Option.some.inj (hother.symm.trans hmiddle))
  | case2 low high hlt middle found hne hless ih =>
    refine ih (by omega) hhigh (fun i other hi hother => ?_) hafter
    rcases Nat.lt_or_eq_of_le (Nat.le_of_lt_succ hi) with hbelow | rfl
    · exact Nat.lt_trans (hascends hbelow hother (hgiven middle (by omega))) hless
    · rwa [Option.some.inj (hother.symm.trans (hgiven middle (by omega)))]
  | case3 low high hlt middle found hne hless ih =>
    have hgreater : value < found := by omega
    refine ih (by omega) (by omega) hbefore fun i other hi hother => ?_
    rcases Nat.lt_or_eq_of_le hi with habove | rfl
    · exact Nat.lt_trans hgreater (hascends habove (hgiven middle (by omega)) hother)
    · rwa [Option.some.inj (hother.symm.trans (hgiven middle (by omega)))]
  | case4 low high hlt =>
    obtain rfl : low = high := by omega
    exact length_takeWhile_le hhigh
      (fun i other hi hother => Nat.le_of_lt (hbefore i other hi hother)) hafter

/-- The search by halving finds the line of an offset. -/
theorem searchLine_ofText (text : List Char) (offset : Nat) :
    (ofText text).searchLine offset = (ofText text).lineOf offset := by
  have htable : ((ofText text).lines.map Line.start).Pairwise (· < ·) :=
    List.pairwise_map.mpr (Line.pairwise_place 0 text)
  have hpast : ∀ i found, ((ofText text).lines.map Line.start).length ≤ i →
      ((ofText text).lines.map Line.start)[i]? = some found → offset < found := by
    intro i found hi hfound
    rw [List.getElem?_eq_none hi] at hfound
    simp at hfound
  have hsearch := length_takeWhile_of_search htable (Nat.zero_le _) (Nat.le_refl _) (by simp) hpast
  rw [List.takeWhile_map, List.length_map] at hsearch
  simp only [Function.comp_def] at hsearch
  simp only [searchLine, lineOf, hsearch]
  cases search ((ofText text).lines.map Line.start) offset 0 _ <;> rfl

theorem exists_lines_tail (text : List Char) :
    ∃ lines tail, text = lines ++ tail ∧ '\n' ∉ tail ∧
      (lines = [] ∨ lines.getLast? = some '\n') ∧
      tail.length = (text.reverse.takeWhile (· != '\n')).length := by
  refine ⟨(text.reverse.dropWhile (· != '\n')).reverse,
    (text.reverse.takeWhile (· != '\n')).reverse, ?_, ?_, ?_, List.length_reverse⟩
  · rw [← List.reverse_append, List.takeWhile_append_dropWhile, List.reverse_reverse]
  · intro hmem
    have hnone := List.all_eq_true.mp List.all_takeWhile _ (List.mem_reverse.mp hmem)
    simp at hnone
  · rw [List.getLast?_reverse]
    have hhead := List.head?_dropWhile_not (· != '\n') text.reverse
    cases hrest : text.reverse.dropWhile (· != '\n') with
    | nil => exact Or.inl rfl
    | cons c rest =>
      rw [hrest] at hhead
      exact Or.inr (by simpa using hhead)

theorem feed_not_mem_last {text : List Char} {number : Nat} {line : Line}
    (h : (ofText text).lines[number]? = some line) (hlast : number + 1 = (ofText text).lineCount) :
    '\n' ∉ line.text := by
  obtain ⟨lines, tail, rfl, htail, hlines, -⟩ := exists_lines_tail text
  obtain ⟨more, hmore⟩ := Line.getElem?_place htail hlines 0 []
  rw [List.append_nil, Nat.zero_add] at hmore
  have hnumber : lines.count '\n' = number := by
    rw [lineCount_eq_count, count_flatMap, List.count_append, List.count_eq_zero.mpr htail] at hlast
    omega
  rw [hnumber] at hmore
  obtain rfl := Option.some.inj (h.symm.trans hmore)
  have hle := (stands_line (List.mem_of_getElem? h)).le_byteLength
  simp only [byteLength_append] at hle
  have hnil : more = [] := by
    cases more with
    | nil => rfl
    | cons c rest =>
      have hpositive := byteLength_pos (List.cons_ne_nil c rest)
      omega
  rw [hnil, List.append_nil]
  exact htail

/-- The bytes of a line: those before its line feed, and the line feed unless it is the last
line. -/
theorem exists_bytes_line {text : List Char} {number : Nat} {line : Line}
    (h : (ofText text).lines[number]? = some line) :
    ∃ content, (10 : UInt8) ∉ content ∧
      line.extent.slice (text.flatMap String.utf8EncodeChar) =
        content ++ if number + 1 < (ofText text).lineCount then [10] else [] := by
  have hmem := List.mem_of_getElem? h
  have hnumber : number < (ofText text).lineCount := (List.getElem?_eq_some_iff.mp h).1
  obtain ⟨words, hwords, htext⟩ := Line.exists_of_mem_split (text_mem_split hmem)
  have hcontent : (10 : UInt8) ∉ words.flatMap String.utf8EncodeChar := by
    rw [← List.count_eq_zero, count_flatMap, List.count_eq_zero]
    exact hwords
  refine ⟨words.flatMap String.utf8EncodeChar, hcontent, ?_⟩
  rw [Line.extent, Line.stop, (stands_line hmem).slice_flatMap]
  split
  · rename_i hnext
    have hlast := getLast?_line h hnext
    rcases htext with htext | htext
    · rw [htext] at hlast
      exact absurd (List.mem_of_getLast? hlast) hwords
    · rw [htext, List.flatMap_append]
      rfl
  · have hnone := feed_not_mem_last h (by omega)
    rcases htext with htext | htext
    · rw [htext, List.append_nil]
    · exact absurd (by rw [htext]; simp) hnone

/-- The line of an offset between two characters starts after the last line feed before it. -/
theorem exists_lineOf (before after : List Char) :
    ∃ lines tail more, before = lines ++ tail ∧
      tail.length = (before.reverse.takeWhile (· != '\n')).length ∧
      (ofText (before ++ after)).lineOf (byteLength before) = before.count '\n' ∧
      (ofText (before ++ after)).lines[before.count '\n']? =
        some ⟨byteLength lines, tail ++ more⟩ := by
  have hlineOf : (ofText (before ++ after)).lineOf (byteLength before) = before.count '\n' := by
    rw [lineOf_eq_count, List.flatMap_append, ← length_flatMap before, List.take_left,
      count_flatMap]
  obtain ⟨lines, tail, rfl, htail, hlines, hlength⟩ := exists_lines_tail before
  obtain ⟨more, hmore⟩ := Line.getElem?_place htail hlines 0 after
  refine ⟨lines, tail, more, rfl, hlength, hlineOf, ?_⟩
  rw [Nat.zero_add] at hmore
  rw [List.count_append, List.count_eq_zero.mpr htail, Nat.add_zero, List.append_assoc]
  exact hmore

/-- Line and column of an offset between two characters, by what stands before it. -/
theorem span_append (before after : List Char) (stop : Nat) :
    (ofText (before ++ after)).span ⟨byteLength before, stop⟩ =
      { start := byteLength before
        stop := stop
        line := before.count '\n' + 1
        column := (before.reverse.takeWhile (· != '\n')).length + 1 } := by
  obtain ⟨lines, tail, more, hbefore, hlength, hlineOf, hline⟩ := exists_lineOf before after
  have hat : (ofText (before ++ after)).lineAt (byteLength before) =
      ⟨byteLength lines, tail ++ more⟩ := by
    rw [lineAt, hlineOf, hline]
    rfl
  have hcolumn : takeBytes (byteLength before - byteLength lines) (tail ++ more) = tail := by
    rw [hbefore, byteLength_append, Nat.add_sub_cancel_left, takeBytes_byteLength]
  unfold span
  simp only [hat, hlineOf, hcolumn, hlength]

/-- What is before an offset starts what is before a later one. -/
theorem exists_append_of_lt {text : List Char} {first second : Nat} (hfirst : SplitsAt text first)
    (hsecond : SplitsAt text second) (hlt : first < second) :
    ∃ before between after, text = before ++ between ++ after ∧ between ≠ [] ∧
      byteLength before = first ∧ byteLength (before ++ between) = second := by
  obtain ⟨before, rest, rfl, rfl⟩ := hfirst
  obtain ⟨longer, after, htext, rfl⟩ := hsecond
  rcases List.append_eq_append_iff.mp htext with ⟨between, rfl, rfl⟩ | ⟨between, rfl, rfl⟩
  · refine ⟨before, between, after, (List.append_assoc _ _ _).symm, ?_, rfl, rfl⟩
    rintro rfl
    simp at hlt
  · rw [byteLength_append] at hlt
    omega

/-- Lines and columns grow with the offset: a later character is on a later line, or on the same
line at a later column. -/
theorem span_increasing {text : List Char} {first second : Nat} (hfirst : SplitsAt text first)
    (hsecond : SplitsAt text second) (hlt : first < second) (stop other : Nat) :
    ((ofText text).span ⟨first, stop⟩).line < ((ofText text).span ⟨second, other⟩).line ∨
      ((ofText text).span ⟨first, stop⟩).line = ((ofText text).span ⟨second, other⟩).line ∧
        ((ofText text).span ⟨first, stop⟩).column <
          ((ofText text).span ⟨second, other⟩).column := by
  obtain ⟨before, between, after, rfl, hne, rfl, rfl⟩ := exists_append_of_lt hfirst hsecond hlt
  rw [span_append (before ++ between) after, List.append_assoc before, span_append before]
  simp only [List.count_append, List.reverse_append]
  by_cases hfeed : '\n' ∈ between
  · have hpositive := List.count_pos_iff.mpr hfeed
    exact Or.inl (by omega)
  · refine Or.inr ⟨by rw [List.count_eq_zero.mpr hfeed, Nat.add_zero], ?_⟩
    rw [List.takeWhile_append_of_pos]
    · have hpositive := List.length_pos_iff.mpr hne
      rw [List.length_append, List.length_reverse]
      omega
    · intro c hc
      have hother : c ≠ '\n' := fun heq => hfeed (heq ▸ List.mem_reverse.mp hc)
      simpa using hother

/-- The index of a text, by the bytes of the text. The ranges of its lines tile the text, each
but the last ends with a line feed, and none holds another. The line of an offset is the number
of line feeds before it, also past the end of the text. Between two characters, the column is
the number of characters since the last line feed, counted from one, and positions are in the
order of their offsets. -/
theorem ofText_exact (text : List Char) :
    (∃ ranges : List Extent, ranges.length = (ofText text).lineCount ∧
      (∀ number, (ofText text).lineRange? number = ranges[number]?) ∧
      Extent.Tiles 0 (encode (String.ofList text)).length ranges ∧
      ∀ number range, ranges[number]? = some range → ∃ content, (10 : UInt8) ∉ content ∧
        range.slice (encode (String.ofList text)) =
          content ++ if number + 1 < (ofText text).lineCount then [10] else []) ∧
    (ofText text).lineCount = (encode (String.ofList text)).count 10 + 1 ∧
    (∀ offset ≤ (encode (String.ofList text)).length,
      (ofText text).lineOf offset = ((encode (String.ofList text)).take offset).count 10) ∧
    (∀ offset, (encode (String.ofList text)).length < offset →
      (ofText text).lineOf offset + 1 = (ofText text).lineCount) ∧
    (∀ before after stop, text = before ++ after →
      (ofText text).span ⟨byteLength before, stop⟩ =
        ⟨byteLength before, stop, before.count '\n' + 1,
          (before.reverse.takeWhile (· != '\n')).length + 1⟩) ∧
    ∀ first second stop other, SplitsAt text first → SplitsAt text second → first < second →
      ((ofText text).span ⟨first, stop⟩).line < ((ofText text).span ⟨second, other⟩).line ∨
        ((ofText text).span ⟨first, stop⟩).line = ((ofText text).span ⟨second, other⟩).line ∧
          ((ofText text).span ⟨first, stop⟩).column <
            ((ofText text).span ⟨second, other⟩).column := by
  have hbytes : encode (String.ofList text) = text.flatMap String.utf8EncodeChar :=
    encode_ofList text
  refine ⟨⟨(ofText text).lines.map Line.extent, List.length_map _, ?_, ?_, ?_⟩, ?_, ?_, ?_, ?_, ?_⟩
  · intro number
    rw [LineIndex.lineRange?, List.getElem?_map]
  · rw [hbytes, length_flatMap]
    exact tiles_lines text
  · intro number range hrange
    rw [List.getElem?_map, Option.map_eq_some_iff] at hrange
    obtain ⟨line, hline, rfl⟩ := hrange
    rw [hbytes]
    exact exists_bytes_line hline
  · rw [hbytes]
    exact lineCount_eq_count text
  · intro offset _
    rw [hbytes]
    exact lineOf_eq_count text offset
  · intro offset hpast
    rw [lineOf_eq_count, ← hbytes, List.take_of_length_le (by omega), hbytes]
    exact (lineCount_eq_count text).symm
  · rintro before after stop rfl
    exact span_append before after stop
  · intro first second stop other hfirst hsecond hlt
    exact span_increasing hfirst hsecond hlt stop other

/-- Letters of two bytes on both sides of a line feed. -/
theorem ofText_exact_wide :
    (ofText ['ü', '\n', 'ß']).lineOf 4 =
      ((encode (String.ofList ['ü', '\n', 'ß'])).take 4).count 10 ∧
    (ofText ['ü', '\n', 'ß']).lineOf 6 + 1 = (ofText ['ü', '\n', 'ß']).lineCount ∧
    (ofText ['ü', '\n', 'ß']).span ⟨3, 5⟩ = ⟨3, 5, 2, 1⟩ ∧
    (((ofText ['ü', '\n', 'ß']).span ⟨2, 5⟩).line < ((ofText ['ü', '\n', 'ß']).span ⟨3, 5⟩).line ∨
      ((ofText ['ü', '\n', 'ß']).span ⟨2, 5⟩).line = ((ofText ['ü', '\n', 'ß']).span ⟨3, 5⟩).line ∧
        ((ofText ['ü', '\n', 'ß']).span ⟨2, 5⟩).column <
          ((ofText ['ü', '\n', 'ß']).span ⟨3, 5⟩).column) := by
  obtain ⟨-, -, hlineOf, hpast, hspan, hincreasing⟩ := ofText_exact ['ü', '\n', 'ß']
  exact ⟨hlineOf 4 (by decide +kernel), hpast 6 (by decide +kernel), hspan ['ü', '\n'] ['ß'] 5 rfl,
    hincreasing 2 3 5 5 ⟨['ü'], ['\n', 'ß'], rfl, rfl⟩ ⟨['ü', '\n'], ['ß'], rfl, rfl⟩ (by decide)⟩

end LineIndex

end UnusedImports
