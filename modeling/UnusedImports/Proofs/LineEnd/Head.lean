import UnusedImports.Proofs.LineEnd.Text
import UnusedImports.Proofs.Token.Shape

/-!
The head of code with carriage returns. A token, a literal or a fault is found at the same
places, of the same kind, and takes the same characters with a carriage return before each line
feed among them. Comments of one line and white space stop before the carriage return, so only a
comment of several lines has line feeds in it.
-/
namespace UnusedImports.Token

open UnusedImports.Text

def Head.withReturns (rest : List Char) : Head → Head
  | .token kind more => .token kind (Text.withReturns (rest.take more)).length
  | .literal quoting => .literal quoting
  | .fault cause more => .fault cause (Text.withReturns (rest.take more)).length

section Lengths

variable {rest : List Char}

/-- Characters without a line feed are as many as before. -/
theorem length_withReturns_take {count : Nat} (hfeed : '\n' ∉ rest.take count)
    (hcount : count ≤ rest.length) : (withReturns (rest.take count)).length = count := by
  rw [withReturns_of_not_mem hfeed, List.length_take, Nat.min_eq_left hcount]

theorem getLast?_takeWhile_ne_return (hreturn : '\r' ∉ rest) (test : Char → Bool) :
    (rest.takeWhile test).getLast? ≠ some '\r' := by
  intro hlast
  exact hreturn ((List.takeWhile_sublist test).subset (List.mem_of_getLast? hlast))

/-- A line comment stops before the line end, however it is written. -/
theorem lineLength_withReturns (hreturn : '\r' ∉ rest) :
    lineLength (withReturns rest) = lineLength rest := by
  unfold lineLength
  simp only
  rw [takeWhile_withReturns_return rfl rfl, if_neg (getLast?_takeWhile_ne_return hreturn _)]
  split
  · simp
  · rw [List.append_nil, if_neg (getLast?_takeWhile_ne_return hreturn _)]

theorem lineLength_le (rest : List Char) : lineLength rest ≤ rest.length := by
  have hline := (List.takeWhile_sublist (l := rest) (· != '\n')).length_le
  unfold lineLength
  simp only
  split <;> omega

/-- What stands after some characters that a line feed follows. -/
theorem getElem?_withReturns_feed {count : Nat} (hfeed : '\n' ∉ rest.take count)
    (hnext : rest[count]? = some '\n') : (withReturns rest)[count + 1]? = some '\n' := by
  obtain ⟨hcount, hget⟩ := List.getElem?_eq_some_iff.mp hnext
  have hdrop := drop_withReturns count rest
  rw [length_withReturns_take hfeed (Nat.le_of_lt hcount), List.drop_eq_getElem_cons hcount, hget,
    withReturns_feed] at hdrop
  rw [← List.getElem?_drop, hdrop]
  rfl

/-- The carriage return before a line feed is not counted as white space. -/
theorem blankLength_withReturns (hreturn : '\r' ∉ rest) :
    blankLength (withReturns rest) = blankLength rest := by
  have hblank : '\n' ∉ rest.take (rest.takeWhile fun c => isWhiteSpace c && c != '\n').length := by
    intro hmem
    simpa using mem_take_takeWhile (Nat.le_refl _) hmem
  unfold blankLength
  simp only
  rw [takeWhile_withReturns_return rfl rfl,
    if_neg (c := rest[_]? = some '\n' ∧ (rest.takeWhile _).getLast? = some '\r')
      fun h => getLast?_takeWhile_ne_return hreturn _ h.2]
  split
  · rename_i hfeed
    rw [List.length_append, List.length_singleton, List.getLast?_concat,
      if_pos ⟨getElem?_withReturns_feed hblank hfeed, rfl⟩, Nat.add_sub_cancel]
  · rw [List.append_nil, if_neg fun h => getLast?_takeWhile_ne_return hreturn _ h.2]

theorem blankLength_le (rest : List Char) : blankLength rest ≤ rest.length := by
  have hblank := (List.takeWhile_sublist (l := rest) fun c =>
    isWhiteSpace c && c != '\n').length_le
  unfold blankLength
  simp only
  split <;> omega

theorem commentLength?_cons {c : Char} (h : ¬(c = '*' ∧ rest.head? = some '/')) :
    commentLength? (c :: rest) = (commentLength? rest).map (· + 1) := by
  rw [commentLength?]
  intro later hc hrest
  exact h ⟨hc, by rw [hrest]; rfl⟩

/-- A block comment takes the line ends in it with it. -/
theorem commentLength?_withReturns (rest : List Char) :
    commentLength? (withReturns rest) =
      (commentLength? rest).map fun length => (withReturns (rest.take length)).length := by
  induction rest with
  | nil => rfl
  | cons c rest ih =>
    by_cases hend : c = '*' ∧ rest.head? = some '/'
    · obtain ⟨rfl, hslash⟩ := hend
      obtain ⟨later, rfl⟩ := List.head?_eq_some_iff.mp hslash
      rfl
    · rw [commentLength?_cons hend, Option.map_map]
      by_cases hc : c = '\n'
      · subst hc
        rw [withReturns_feed, commentLength?_cons (by simp), commentLength?_cons (by simp), ih,
          Option.map_map, Option.map_map]
        rfl
      · rw [withReturns_cons hc, commentLength?_cons (by
          rwa [head?_withReturns (by decide) (by decide)]), ih, Option.map_map]
        congr 1
        funext length
        simp [withReturns_cons hc]

theorem hasRadix_withReturns (first : Char) (rest : List Char) :
    hasRadix first (withReturns rest) = hasRadix first rest := by
  unfold hasRadix
  rw [head?_any_withReturns rfl rfl]

theorem numberLength_withReturns (radix point : Bool) (previous : Char) (rest : List Char) :
    numberLength radix point previous (withReturns rest) =
      numberLength radix point previous rest := by
  induction rest generalizing point previous with
  | nil => rfl
  | cons c rest ih =>
    by_cases hc : c = '\n'
    · subst hc
      simp [numberLength, isAsciiLetter, isAsciiDigit]
    · rw [withReturns_cons hc, numberLength, numberLength, head?_any_withReturns rfl rfl]
      simp only [ih]

theorem numberLength_le (radix point : Bool) (previous : Char) (rest : List Char) :
    numberLength radix point previous rest ≤ rest.length := by
  fun_induction numberLength radix point previous rest <;> simp_all

theorem operator?_withReturns (text : List Char) :
    operator? (withReturns text) = operator? text := by
  unfold operator?
  have hspell := operators_spell
  generalize Lexicon.operators = operators at hspell ⊢
  induction operators with
  | nil => rfl
  | cons operator operators ih =>
    have hoperator := (hspell operator List.mem_cons_self).2
    have hword : ∀ c : Char, isSpacing c = true → c ∉ operator.toList := by
      intro c hc hmem
      simp [hoperator c hmem] at hc
    rw [List.find?_cons, List.find?_cons, isPrefixOf_withReturns (hword '\n' rfl) (hword '\r' rfl),
      ih fun other hmem => hspell other (List.mem_cons_of_mem operator hmem)]

end Lengths

section Finding

variable {c : Char} {rest : List Char}

theorem Head.withReturns_ite {condition : Prop} [Decidable condition]
    {first second other another : Head} (hfirst : condition → other = first.withReturns rest)
    (hsecond : ¬condition → another = second.withReturns rest) :
    (if condition then other else another) =
      (if condition then first else second).withReturns rest := by
  split
  · exact hfirst ‹_›
  · exact hsecond ‹_›

/-- A token without line feeds takes as many characters as before. -/
theorem Head.withReturns_token {more : Nat} (hfeed : '\n' ∉ rest.take more)
    (hmore : more ≤ rest.length) (kind : Kind) :
    Head.token kind more = (Head.token kind more).withReturns rest := by
  rw [Head.withReturns, length_withReturns_take hfeed hmore]

theorem blockComment_withReturns (h : rest.head? = some '*') :
    (match commentLength? ((withReturns rest).drop 1) with
      | some length => Head.token .comment (length + 1)
      | none => .fault .unterminatedComment (withReturns rest).length) =
    (match commentLength? (rest.drop 1) with
      | some length => Head.token .comment (length + 1)
      | none => .fault .unterminatedComment rest.length).withReturns rest := by
  obtain ⟨later, rfl⟩ := List.head?_eq_some_iff.mp h
  rw [withReturns_cons (by decide), List.drop_one, List.drop_one, List.tail_cons, List.tail_cons,
    commentLength?_withReturns]
  cases commentLength? later with
  | none => simp [Head.withReturns, withReturns_cons]
  | some length => simp [Head.withReturns, withReturns_cons]

theorem operator_withReturns (hfeed : c ≠ '\n') :
    (match operator? (c :: withReturns rest) with
      | some operator => Head.token .operator (operator.toList.length - 1)
      | none => .fault (.unexpectedCharacter c) 0) =
    (match operator? (c :: rest) with
      | some operator => Head.token .operator (operator.toList.length - 1)
      | none => .fault (.unexpectedCharacter c) 0).withReturns rest := by
  rw [← withReturns_cons hfeed, operator?_withReturns]
  cases hoperator : operator? (c :: rest) with
  | none => rfl
  | some operator =>
    obtain ⟨hne, hspell⟩ := operators_spell operator (List.mem_of_find?_eq_some hoperator)
    have hprefix : operator.toList.isPrefixOf (c :: rest) = true := by
      simpa using List.find?_some hoperator
    refine Head.withReturns_token ?_ ?_ _
    · intro hmem
      rw [← (take_of_isPrefixOf hprefix hne).2] at hspell
      simpa [isSpacing] using hspell '\n' (List.mem_cons_of_mem c hmem)
    · have hlength := (List.isPrefixOf_iff_prefix.mp hprefix).length_le
      simp only [List.length_cons] at hlength
      omega

/-- Away from line ends, the head of code is found as before. -/
theorem head_withReturns (operand : Bool) (hfeed : c ≠ '\n') (hc : c ≠ '\r')
    (hreturn : '\r' ∉ rest) :
    head operand c (withReturns rest) = (head operand c rest).withReturns rest := by
  have hslash := head?_withReturns (c := '/') (by decide) (by decide) rest
  have hstar := head?_withReturns (c := '*') (by decide) (by decide) rest
  have hnames : nameLength rest ≤ rest.length := (List.takeWhile_sublist _).length_le
  have hname : '\n' ∉ rest.take (nameLength rest) := by
    intro hmem
    simpa [isSpacing] using isSpacing_of_isNameChar (mem_take_takeWhile (Nat.le_refl _) hmem)
  unfold head
  simp only [hslash, hstar, if_neg hfeed, if_neg (fun h => hc (And.left h))]
  refine Head.withReturns_ite (fun _ => ?_) fun _ => ?_
  · rw [blankLength_withReturns hreturn]
    exact Head.withReturns_token (not_mem_take_blankLength rest) (blankLength_le rest) _
  refine Head.withReturns_ite (fun _ => ?_) fun _ => ?_
  · rw [lineLength_withReturns hreturn]
    exact Head.withReturns_token (not_mem_take_lineLength rest) (lineLength_le rest) _
  refine Head.withReturns_ite (fun hcase => blockComment_withReturns hcase.2) fun _ => ?_
  refine Head.withReturns_ite (fun _ => ?_) fun _ => ?_
  · rw [isPrefixOf_withReturns (by decide) (by decide)]
    rfl
  refine Head.withReturns_ite (fun _ => ?_) fun _ => ?_
  · rw [isPrefixOf_withReturns (by decide) (by decide)]
    rfl
  refine Head.withReturns_ite (fun _ => rfl) fun _ => ?_
  refine Head.withReturns_ite (fun _ => rfl) fun _ => ?_
  refine Head.withReturns_ite (fun _ => ?_) fun _ => ?_
  · rw [nameLength, takeWhile_withReturns rfl rfl]
    exact Head.withReturns_token hname hnames _
  refine Head.withReturns_ite (fun _ => ?_) fun _ => operator_withReturns hfeed
  · rw [hasRadix_withReturns, numberLength_withReturns]
    refine Head.withReturns_token ?_ (numberLength_le ..) _
    intro hmem
    simpa [isSpacing] using isSpacing_of_mem_number _ hmem

end Finding

end UnusedImports.Token
