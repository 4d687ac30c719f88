import UnusedImports.Proofs.Text.Offset
import UnusedImports.Token.Lexer

/-!
The shape of tokens. Spacing is found only in white space, line ends, comments and pieces of
literals; a comment that spans lines starts and ends with a sign; and a piece of a literal
starts and ends with one too, unless an interpolated expression stands right beside it.
-/
namespace UnusedImports.Token

open UnusedImports.Text

inductive Path : List Token → Prop
  | first {word opening : Token} {earlier : List Token}
      (hword : word.kind = .identifier ∨ word.kind = .keyword)
      (hopening : opening.kind = .interpolationStart) : Path (word :: opening :: earlier)
  | next {word dot : Token} {earlier : List Token}
      (hword : word.kind = .identifier ∨ word.kind = .keyword)
      (hdot : dot.kind = .operator ∧ dot.text = ".") (hearlier : Path earlier) :
      Path (word :: dot :: earlier)

def isOpen (token : Token) : Bool :=
  token.kind == .literal && token.text.toList.getLast?.any isSpacing

def Spelled (token : Token) : Prop :=
  token.text.toList ≠ [] ∧ ∀ c ∈ token.text.toList, isSpacing c = false

/-- What the text of a token may be, after the earlier tokens, the latest first. -/
def Fits (earlier : List Token) (token : Token) : Prop :=
  match token.kind with
  | .identifier | .keyword | .number | .operator | .interpolationStart => token.Spelled
  | .literal => token.text.toList ≠ [] ∧ (token.text.toList.head?.any isSpacing = true →
      earlier.head?.any (fun last => last.kind == .interpolationEnd) = true)
  | .interpolationEnd => token.text.toList = ['\x7d'] ∨ token.text.toList = [] ∧ Path earlier
  | .comment => token.text.toList.head?.any (fun c => !isSpacing c) = true ∧
      ('\n' ∈ token.text.toList → token.text.toList.getLast?.any (fun c => !isSpacing c) = true)
  | .blank => token.text.toList ≠ [] ∧ '\n' ∉ token.text.toList
  | .newline => token.text.toList = ['\n'] ∨ token.text.toList = ['\r', '\n']

/-- Each token fits after the ones before it, the latest first, and only an interpolated
expression follows a piece of a literal that goes on. -/
inductive Sound : List Token → Prop
  | nil : Sound []
  | cons {token : Token} {earlier : List Token} (hfits : Fits earlier token)
      (hopen : earlier.head?.any isOpen = true → token.kind = .interpolationStart)
      (hearlier : Sound earlier) : Sound (token :: earlier)

theorem Path.not_isOpen {tokens : List Token} (h : Path tokens) :
    tokens.head?.any isOpen = false := by
  cases h with
  | first hword _ => rcases hword with hword | hword <;> simp [isOpen, hword]
  | next hword _ _ => rcases hword with hword | hword <;> simp [isOpen, hword]

section Characters

theorem cases_of_isSpacing {c : Char} (h : isSpacing c = true) :
    c = ' ' ∨ c = '\t' ∨ c = '\r' ∨ c = '\n' := by
  simpa [isSpacing, isSpaceOrTab, or_assoc] using h

theorem isSpacing_of_class (test : Char → Bool) (hspace : test ' ' = false)
    (htab : test '\t' = false) (hreturn : test '\r' = false) (hfeed : test '\n' = false) {c : Char}
    (h : test c = true) : isSpacing c = false := by
  cases hspacing : isSpacing c with
  | false => rfl
  | true =>
    rcases cases_of_isSpacing hspacing with rfl | rfl | rfl | rfl
    · simp [hspace] at h
    · simp [htab] at h
    · simp [hreturn] at h
    · simp [hfeed] at h

theorem isSpacing_of_isNameStart {c : Char} (h : isNameStart c = true) : isSpacing c = false :=
  isSpacing_of_class isNameStart rfl rfl rfl rfl h

theorem isSpacing_of_isNameChar {c : Char} (h : isNameChar c = true) : isSpacing c = false :=
  isSpacing_of_class isNameChar rfl rfl rfl rfl h

theorem isSpacing_of_isShortNameStart {c : Char} (h : isShortNameStart c = true) :
    isSpacing c = false :=
  isSpacing_of_class isShortNameStart rfl rfl rfl rfl h

theorem isSpacing_of_mem_number {radix point : Bool} {previous : Char} {rest : List Char} :
    ∀ c ∈ rest.take (numberLength radix point previous rest), isSpacing c = false := by
  fun_induction numberLength radix point previous rest with
  | case1 => simp
  | case2 point previous c rest hletter ih =>
    have hc : isSpacing c = false := isSpacing_of_class
      (fun c => isAsciiLetter c || isAsciiDigit c || c == '_') rfl rfl rfl rfl hletter
    intro d hd
    rcases List.mem_cons.mp hd with rfl | hd
    · exact hc
    · exact ih d hd
  | case3 point previous c rest hletter hpoint ih =>
    intro d hd
    simp only [Bool.and_eq_true, beq_iff_eq] at hpoint
    rcases List.mem_cons.mp hd with rfl | hd
    · rw [hpoint.1.1.1]
      rfl
    · exact ih d hd
  | case4 point previous c rest hletter hpoint hsign ih =>
    intro d hd
    simp only [Bool.and_eq_true, Bool.or_eq_true, beq_iff_eq] at hsign
    rcases List.mem_cons.mp hd with rfl | hd
    · rcases hsign.1.1.1 with rfl | rfl
      · rfl
      · rfl
    · exact ih d hd
  | case5 => simp

theorem operators_spell : ∀ operator ∈ Lexicon.operators,
    operator.toList ≠ [] ∧ ∀ c ∈ operator.toList, isSpacing c = false := by
  have hall : (Lexicon.operators.all fun operator =>
      !operator.toList.isEmpty && operator.toList.all fun c => !isSpacing c) = true := by
    decide +kernel
  intro operator hmem
  simpa using List.all_eq_true.mp hall operator hmem

theorem mem_take_takeWhile {test : Char → Bool} {rest : List Char} {count : Nat}
    (hcount : count ≤ (rest.takeWhile test).length) {c : Char} (hc : c ∈ rest.take count) :
    test c = true := by
  have htake : rest.take count = (rest.takeWhile test).take count := by
    conv => lhs; rw [← List.takeWhile_append_dropWhile (p := test) (l := rest)]
    exact List.take_append_of_le_length hcount
  rw [htake] at hc
  exact List.all_eq_true.mp List.all_takeWhile c (List.mem_of_mem_take hc)

theorem not_mem_take_lineLength (rest : List Char) : '\n' ∉ rest.take (lineLength rest) := by
  intro hmem
  have hlength : lineLength rest ≤ (rest.takeWhile (· != '\n')).length := by
    unfold lineLength
    simp only
    split <;> omega
  have htest := mem_take_takeWhile hlength hmem
  simp at htest

/-- White space ends before the line feed. -/
theorem not_mem_take_blankLength (rest : List Char) : '\n' ∉ rest.take (blankLength rest) := by
  intro hmem
  have hlength : blankLength rest ≤
      (rest.takeWhile fun c => isWhiteSpace c && c != '\n').length := by
    unfold blankLength
    simp only
    split <;> omega
  have htest := mem_take_takeWhile hlength hmem
  simp at htest

theorem getLast?_take_commentLength {rest : List Char} {length : Nat}
    (h : commentLength? rest = some length) : (rest.take length).getLast? = some '/' := by
  fun_induction commentLength? rest generalizing length with
  | case1 rest =>
    obtain rfl := Option.some.inj h
    rfl
  | case2 c rest hne ih =>
    obtain ⟨inner, hinner, rfl⟩ := Option.map_eq_some_iff.mp h
    rw [List.take_succ_cons, List.getLast?_cons, ih hinner]
    rfl
  | case3 => simp at h

theorem take_of_isPrefixOf {first rest : List Char} {c : Char}
    (h : first.isPrefixOf (c :: rest) = true) (hne : first ≠ []) :
    c :: rest = first ++ rest.drop (first.length - 1) ∧
      c :: rest.take (first.length - 1) = first := by
  obtain ⟨later, hlater⟩ := List.isPrefixOf_iff_prefix.mp h
  obtain ⟨d, more, rfl⟩ := List.exists_cons_of_ne_nil hne
  obtain ⟨rfl, rfl⟩ := List.cons.inj hlater
  simp

end Characters

section Kinds

variable {c : Char} {rest : List Char} (earlier : List Token) (start depth : Nat)

theorem fits_blank (hfeed : c ≠ '\n') :
    Fits earlier ⟨.blank, String.ofList (c :: rest.take (blankLength rest)), start, depth⟩ := by
  refine ⟨by simp, ?_⟩
  rw [String.toList_ofList, List.mem_cons, not_or]
  exact ⟨fun heq => hfeed heq.symm, not_mem_take_blankLength rest⟩

theorem fits_lineComment (hc : isSpacing c = false) :
    Fits earlier
      ⟨.comment, String.ofList (c :: rest.take (lineLength rest)), start, depth⟩ := by
  refine ⟨?_, fun hmem => ?_⟩
  · simp [hc]
  · rw [String.toList_ofList, List.mem_cons] at hmem
    rcases hmem with rfl | hmem
    · simp [isSpacing] at hc
    · exact absurd hmem (not_mem_take_lineLength rest)

theorem fits_blockComment {length : Nat} (h : commentLength? rest = some length) :
    Fits earlier
      ⟨.comment, String.ofList ('/' :: ('*' :: rest).take (length + 1)), start, depth⟩ := by
  refine ⟨?_, fun _ => ?_⟩
  · rw [String.toList_ofList]
    rfl
  · rw [String.toList_ofList, List.take_succ_cons, List.getLast?_cons, List.getLast?_cons,
      getLast?_take_commentLength h]
    rfl

/-- A token of another kind only has to be written without spacing. -/
theorem fits_of_spell {kind : Kind} {text : List Char}
    (hkind : kind = .identifier ∨ kind = .keyword ∨ kind = .number ∨ kind = .operator ∨
      kind = .interpolationStart)
    (hne : text ≠ []) (hspell : ∀ d ∈ text, isSpacing d = false) :
    Fits earlier ⟨kind, String.ofList text, start, depth⟩ := by
  have htext : (String.ofList text).toList ≠ [] ∧
      ∀ d ∈ (String.ofList text).toList, isSpacing d = false := by
    rw [String.toList_ofList]
    exact ⟨hne, hspell⟩
  rcases hkind with rfl | rfl | rfl | rfl | rfl
  all_goals exact htext

theorem wordKind_cases (word : List Char) :
    wordKind word = .keyword ∨ wordKind word = .identifier := by
  unfold wordKind
  split
  · exact Or.inl rfl
  · exact Or.inr rfl

theorem fits_word (kindText : List Char) (hc : isSpacing c = false) :
    Fits earlier
      ⟨wordKind kindText, String.ofList (c :: rest.takeWhile isNameChar), start, depth⟩ := by
  refine fits_of_spell earlier start depth ?_ (by simp) ?_
  · rcases wordKind_cases kindText with h | h
    · exact Or.inr (Or.inl h)
    · exact Or.inl h
  · intro d hd
    rcases List.mem_cons.mp hd with rfl | hd
    · exact hc
    · exact isSpacing_of_isNameChar (List.all_eq_true.mp List.all_takeWhile d hd)

theorem fits_number (hdigit : isAsciiDigit c = true) (radix : Bool) :
    Fits earlier ⟨.number,
      String.ofList (c :: rest.take (numberLength radix false c rest)), start, depth⟩ := by
  apply fits_of_spell earlier start depth (by simp) (by simp)
  intro d hd
  rcases List.mem_cons.mp hd with rfl | hd
  · exact isSpacing_of_class isAsciiDigit rfl rfl rfl rfl hdigit
  · exact isSpacing_of_mem_number d hd

theorem fits_operator {operator : String} (h : operator? (c :: rest) = some operator) :
    Fits earlier
      ⟨.operator, String.ofList (c :: rest.take (operator.toList.length - 1)), start, depth⟩ := by
  obtain ⟨hne, hspell⟩ := operators_spell operator (List.mem_of_find?_eq_some h)
  have hprefix : operator.toList.isPrefixOf (c :: rest) = true := by
    simpa using List.find?_some h
  rw [(take_of_isPrefixOf hprefix hne).2]
  exact fits_of_spell earlier start depth (by simp) hne hspell

end Kinds

def Delivers (c : Char) (rest : List Char) : Head → Prop
  | .token kind more => kind ≠ .literal ∧ ∀ earlier start depth,
      Fits earlier ⟨kind, String.ofList (c :: rest.take more), start, depth⟩
  | .literal quoting => c :: rest = quoting.opening ++ rest.drop (quoting.opening.length - 1)
  | .fault _ _ => True

theorem delivers_newline (rest : List Char) : Delivers '\n' rest (.token .newline 0) :=
  ⟨by simp, fun _ _ _ => Or.inl (by simp)⟩

theorem delivers_return {rest : List Char} (h : rest.head? = some '\n') :
    Delivers '\r' rest (.token .newline 1) := by
  obtain ⟨later, rfl⟩ := List.head?_eq_some_iff.mp h
  exact ⟨by simp, fun _ _ _ => Or.inr (by simp)⟩

theorem delivers_blockComment {rest : List Char} (h : rest.head? = some '*') :
    Delivers '/' rest
      (match commentLength? (rest.drop 1) with
        | some length => .token .comment (length + 1)
        | none => .fault .unterminatedComment rest.length) := by
  obtain ⟨later, rfl⟩ := List.head?_eq_some_iff.mp h
  rw [List.drop_one, List.tail_cons]
  cases hlength : commentLength? later with
  | none => trivial
  | some length =>
    exact ⟨by simp, fun earlier start depth => fits_blockComment earlier start depth hlength⟩

/-- A quote opens a literal, and three of them open one that spans lines. -/
theorem delivers_quote {c : Char} {rest : List Char} {once thrice : Quoting}
    (hsingle : once.opening = [c]) (htriple : thrice.opening = [c, c, c]) :
    Delivers c rest (.literal (if [c, c].isPrefixOf rest then thrice else once)) := by
  split
  · rename_i hprefix
    obtain ⟨later, rfl⟩ := List.isPrefixOf_iff_prefix.mp hprefix
    simp [Delivers, htriple]
  · simp [Delivers, hsingle]

theorem delivers_dollar {rest : List Char} (h : rest.head? = some '/') :
    Delivers '$' rest (.literal .dollarSlashy) := by
  obtain ⟨later, rfl⟩ := List.head?_eq_some_iff.mp h
  rfl

theorem delivers_word {c : Char} (h : isNameStart c = true) (rest : List Char) :
    Delivers c rest (.token (wordKind (c :: rest.takeWhile isNameChar)) (nameLength rest)) := by
  have htake : rest.take (nameLength rest) = rest.takeWhile isNameChar := by
    rw [nameLength]
    exact (List.prefix_iff_eq_take.mp (List.takeWhile_prefix isNameChar)).symm
  refine ⟨?_, fun earlier start depth => ?_⟩
  · rcases wordKind_cases (c :: rest.takeWhile isNameChar) with hkind | hkind
    · simp [hkind]
    · simp [hkind]
  · rw [htake]
    exact fits_word earlier start depth _ (isSpacing_of_isNameStart h)

theorem delivers_operator (c : Char) (rest : List Char) :
    Delivers c rest
      (match operator? (c :: rest) with
        | some operator => .token .operator (operator.toList.length - 1)
        | none => .fault (.unexpectedCharacter c) 0) := by
  cases hoperator : operator? (c :: rest) with
  | none => trivial
  | some operator =>
    exact ⟨by simp, fun earlier start depth => fits_operator earlier start depth hoperator⟩

/-- The head of code keeps its promise. -/
theorem delivers_head (operand : Bool) (c : Char) (rest : List Char) :
    Delivers c rest (head operand c rest) := by
  unfold head
  refine iteInduction (motive := Delivers c rest) ?_ fun hfeed => ?_
  · rintro rfl
    exact delivers_newline rest
  refine iteInduction (motive := Delivers c rest) ?_ fun _ => ?_
  · intro hcase
    obtain ⟨rfl, hrest⟩ := hcase
    exact delivers_return hrest
  refine iteInduction (motive := Delivers c rest) (fun _ => ?_) fun _ => ?_
  · exact ⟨by simp, fun earlier start depth => fits_blank earlier start depth hfeed⟩
  refine iteInduction (motive := Delivers c rest) ?_ fun _ => ?_
  · intro hcase
    obtain ⟨rfl, -⟩ := hcase
    exact ⟨by simp, fun earlier start depth => fits_lineComment earlier start depth rfl⟩
  refine iteInduction (motive := Delivers c rest) ?_ fun _ => ?_
  · intro hcase
    obtain ⟨rfl, hrest⟩ := hcase
    exact delivers_blockComment hrest
  refine iteInduction (motive := Delivers c rest) ?_ fun _ => ?_
  · rintro rfl
    exact delivers_quote rfl rfl
  refine iteInduction (motive := Delivers c rest) ?_ fun _ => ?_
  · rintro rfl
    exact delivers_quote rfl rfl
  refine iteInduction (motive := Delivers c rest) ?_ fun _ => ?_
  · intro hcase
    obtain ⟨rfl, hrest⟩ := hcase
    exact delivers_dollar hrest
  refine iteInduction (motive := Delivers c rest) ?_ fun _ => ?_
  · intro hcase
    obtain ⟨rfl, -⟩ := hcase
    rfl
  refine iteInduction (motive := Delivers c rest) (fun hname => ?_) fun _ => ?_
  · exact delivers_word hname rest
  refine iteInduction (motive := Delivers c rest) (fun hdigit => ?_) fun _ => ?_
  · exact ⟨by simp, fun earlier start depth => fits_number earlier start depth hdigit _⟩
  · exact delivers_operator c rest

end UnusedImports.Token
