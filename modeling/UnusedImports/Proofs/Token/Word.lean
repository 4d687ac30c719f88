import UnusedImports.Proofs.Token.Moves

/-!
Words, read and written. Every identifier and every keyword of a text is a name, and which of the
two it is depends on the name alone. Conversely, a name that is written in code is read as the
token it is, up to what comes behind it, so a text that is written token by token is cut into just
these tokens.
-/
namespace UnusedImports.Token

open UnusedImports.Text

section Heads

def Head.StartsName (c : Char) (rest : List Char) : Head → Prop
  | .token kind more => kind = .identifier ∨ kind = .keyword → ∀ start depth,
      HoldsName ⟨kind, String.ofList (c :: rest.take more), start, depth⟩
  | .literal _ | .fault .. => True

theorem startsName_head (operand : Bool) (c : Char) (rest : List Char) :
    (head operand c rest).StartsName c rest := by
  have plain : ∀ {kind} more, kind ≠ .identifier → kind ≠ .keyword →
      (Head.token kind more).StartsName c rest :=
    fun more hidentifier hkeyword hkind => (hkind.elim hidentifier hkeyword).elim
  unfold head
  refine iteInduction (motive := Head.StartsName c rest) (fun _ => plain _ (by simp) (by simp))
    fun _ => ?_
  refine iteInduction (motive := Head.StartsName c rest) (fun _ => plain _ (by simp) (by simp))
    fun _ => ?_
  refine iteInduction (motive := Head.StartsName c rest) (fun _ => plain _ (by simp) (by simp))
    fun _ => ?_
  refine iteInduction (motive := Head.StartsName c rest) (fun _ => plain _ (by simp) (by simp))
    fun _ => ?_
  refine iteInduction (motive := Head.StartsName c rest) (fun _ => ?_) fun _ => ?_
  · split
    · exact plain _ (by simp) (by simp)
    · trivial
  refine iteInduction (motive := Head.StartsName c rest) (fun _ => trivial) fun _ => ?_
  refine iteInduction (motive := Head.StartsName c rest) (fun _ => trivial) fun _ => ?_
  refine iteInduction (motive := Head.StartsName c rest) (fun _ => trivial) fun _ => ?_
  refine iteInduction (motive := Head.StartsName c rest) (fun _ => trivial) fun _ => ?_
  refine iteInduction (motive := Head.StartsName c rest) (fun hname => ?_) fun _ => ?_
  · intro _ start depth
    rw [nameLength, ← List.prefix_iff_eq_take.mp (List.takeWhile_prefix isNameChar)]
    exact holdsName_word hname rest start depth
  refine iteInduction (motive := Head.StartsName c rest) (fun _ => plain _ (by simp) (by simp))
    fun _ => ?_
  split
  · exact plain _ (by simp) (by simp)
  · trivial

end Heads

namespace Lexer

section Words

variable {text : List Char} {lexer next : Lexer} {c : Char} {rest : List Char}

def HoldsNames (tokens : List Token) : Prop :=
  ∀ token ∈ tokens, token.kind = .identifier ∨ token.kind = .keyword → token.HoldsName

theorem HoldsNames.cons {tokens : List Token} (h : HoldsNames tokens) {token : Token}
    (htoken : token.kind = .identifier ∨ token.kind = .keyword → token.HoldsName) :
    HoldsNames (token :: tokens) :=
  List.forall_mem_cons.mpr ⟨htoken, h⟩

theorem HoldsNames.flush (h : HoldsNames lexer.tokens) : HoldsNames lexer.flush.tokens := by
  unfold Lexer.flush
  split
  · exact h
  · exact h.cons (by simp)

theorem HoldsNames.move (h : HoldsNames lexer.tokens) (hmove : lexer.Moves c rest next) :
    HoldsNames next.tokens := by
  cases hmove with
  | @token kind more _ _ hhead =>
    have hname := startsName_head (operandExpected lexer.tokens) c rest
    rw [hhead] at hname
    exact h.cons fun hkind => hname hkind _ _
  | openLiteral _ _ _ => exact h
  | closeHole _ _ => exact h.cons (by simp)
  | closeLiteral _ _ => exact h.cons (by simp)
  | plain _ _ _ => exact h
  | escaped _ _ _ _ => exact h
  | openHole _ _ _ _ => exact h.flush.cons (by simp)
  | @shortName _ _ _ _ after _ _ _ _ hstart =>
    obtain ⟨names, htokens, hnames⟩ := exists_names_namePath
      (lexer.flush.emit .interpolationStart lexer.flush.depth ['$']) (lexer.flush.depth + 1) after
      hstart
    refine HoldsNames.cons ?_ (by simp)
    rw [htokens]
    intro token hmem hkind
    rcases List.mem_append.mp hmem with hmem | hmem
    · obtain ⟨-, hname | ⟨hoperator, -⟩⟩ := hnames token (List.mem_reverse.mp hmem)
      · exact hname
      · simp [hoperator] at hkind
    · exact h.flush.cons (by simp) token hmem hkind

theorem Reads.holdsNames (h : Reads text lexer) : HoldsNames lexer.tokens := by
  induction h with
  | start =>
    intro token hmem hkind
    have htrivia := (trivia_start text token hmem).1
    rcases hkind with hkind | hkind
    · simp [isTrivia, hkind] at htrivia
    · simp [isTrivia, hkind] at htrivia
  | step _ _ hstep ih => exact ih.move (moves_of_step hstep)

end Words

end Lexer

/-- The words of a text are names. -/
theorem holdsName_of_lex {text : List Char} {tokens : List Token} (h : lex text = .ok tokens)
    {token : Token} (hmem : token ∈ tokens)
    (hkind : token.kind = .identifier ∨ token.kind = .keyword) : token.HoldsName := by
  obtain ⟨last, hreads, -, -, rfl⟩ := Lexer.exists_reads_of_lex h
  exact hreads.holdsNames token (List.mem_reverse.mp hmem) hkind

theorem isNameStart_of_isWhiteSpace {c : Char} (h : isWhiteSpace c = true) :
    isNameStart c = false := by
  have hall : ((List.range' 0x09 5 ++ List.range' 0x2000 11 ++
      [0x20, 0x85, 0xa0, 0x1680, 0x2028, 0x2029, 0x202f, 0x205f, 0x3000]).all
        fun code => !isNameStart (Char.ofNat code)) = true := by decide +kernel
  have hmem : c.toNat ∈ List.range' 0x09 5 ++ List.range' 0x2000 11 ++
      [0x20, 0x85, 0xa0, 0x1680, 0x2028, 0x2029, 0x202f, 0x205f, 0x3000] := by
    simp only [isWhiteSpace, Bool.or_eq_true, Bool.and_eq_true, beq_iff_eq, decide_eq_true_eq] at h
    simp only [List.mem_append, List.mem_range'_1, List.mem_cons, List.not_mem_nil, or_false]
    omega
  have hcode := List.all_eq_true.mp hall _ hmem
  rwa [Char.ofNat_toNat, Bool.not_eq_true'] at hcode

def spell (pieces : List (Kind × List Char)) : List Char := pieces.flatMap Prod.snd

/-- Each piece is read as a token of its kind where it is written before the later ones. -/
inductive Legible : List (Kind × List Char) → Prop
  | nil : Legible []
  | cons {kind : Kind} {c : Char} {more : List Char} {later : List (Kind × List Char)}
      (hhead : ∀ operand, head operand c (more ++ spell later) = .token kind more.length)
      (hlater : Legible later) : Legible ((kind, c :: more) :: later)

section Writing

variable {later : List (Kind × List Char)} {word : List Char}

theorem IsName.head?_spell (h : IsName word) (kind : Kind) (later : List (Kind × List Char)) :
    ∃ c, (spell ((kind, word) :: later)).head? = some c ∧ isNameStart c = true := by
  obtain ⟨c, more, rfl, hstart, -⟩ := h
  exact ⟨c, rfl, hstart⟩

/-- Behind a name the text ends, or a blank or a point comes next. -/
theorem Legible.name (h : Legible later) (hname : IsName word)
    (hstop : ∀ piece, later.head? = some piece →
      piece = (.blank, [' ']) ∨ piece = (.operator, ['.'])) :
    Legible ((wordKind word, word) :: later) := by
  obtain ⟨c, more, rfl, hstart, hmore⟩ := hname
  refine .cons (fun operand => ?_) h
  have hother : ∀ d, isNameStart d = false → c ≠ d := by
    rintro d hd rfl
    simp [hd] at hstart
  have hspace : isWhiteSpace c = false := by
    rw [Bool.eq_false_iff]
    exact fun hspace => absurd hstart (by simp [isNameStart_of_isWhiteSpace hspace])
  have hnext : ∀ d, (spell later).head? = some d → d = ' ' ∨ d = '.' := by
    intro d hd
    cases later with
    | nil => simp [spell] at hd
    | cons piece later =>
      rcases hstop piece rfl with rfl | rfl
      · exact Or.inl (Option.some.inj hd).symm
      · exact Or.inr (Option.some.inj hd).symm
  have hwhole : (more ++ spell later).takeWhile isNameChar = more := by
    rw [List.takeWhile_append_of_pos hmore]
    cases hspell : spell later with
    | nil => simp
    | cons d rest =>
      have hd : isNameChar d = false := by
        rcases hnext d (by rw [hspell]; rfl) with rfl | rfl <;> decide
      simp [hd]
  have hslash : (more ++ spell later).head? ≠ some '/' := by
    intro hslash
    cases more with
    | nil => simpa using hnext '/' hslash
    | cons d more =>
      obtain rfl : d = '/' := by simpa using hslash
      exact absurd (hmore '/' List.mem_cons_self) (by decide)
  unfold head
  rw [if_neg (hother '\n' (by decide)), if_neg (fun h => hother '\r' (by decide) h.1),
    if_neg (by simp [hspace]), if_neg (fun h => hother '/' (by decide) h.1),
    if_neg (fun h => hother '/' (by decide) h.1), if_neg (hother '\'' (by decide)),
    if_neg (hother '"' (by decide)), if_neg (fun h => hslash h.2),
    if_neg (fun h => hother '/' (by decide) h.1), if_pos hstart, nameLength, hwhole]

theorem Legible.blank (h : Legible ((wordKind word, word) :: later)) (hname : IsName word) :
    Legible ((.blank, [' ']) :: (wordKind word, word) :: later) := by
  refine .cons (fun operand => ?_) h
  obtain ⟨c, hc, hstart⟩ := hname.head?_spell (wordKind word) later
  obtain ⟨rest, hrest⟩ := List.head?_eq_some_iff.mp hc
  have hsolid : isWhiteSpace c = false := by
    rw [Bool.eq_false_iff]
    exact fun hspace => absurd hstart (by simp [isNameStart_of_isWhiteSpace hspace])
  have hspace : isWhiteSpace ' ' = true := by decide
  simp [head, hspace, hrest, blankLength, hsolid]

theorem Legible.point (h : Legible ((wordKind word, word) :: later)) (hname : IsName word) :
    Legible ((.operator, ['.']) :: (wordKind word, word) :: later) := by
  refine .cons (fun operand => ?_) h
  obtain ⟨c, hc, hstart⟩ := hname.head?_spell (wordKind word) later
  obtain ⟨rest, hrest⟩ := List.head?_eq_some_iff.mp hc
  have hother : ∀ d, isNameStart d = false → d ≠ c := by
    rintro d hd rfl
    simp [hd] at hstart
  have hoperator : operator? ('.' :: c :: rest) = some "." := by
    simp [operator?, Lexicon.operators, List.isPrefixOf, hother '.' (by decide),
      hother '&' (by decide), hother '@' (by decide)]
  have hspace : isWhiteSpace '.' = false := by decide
  have hpoint : isNameStart '.' = false := by decide
  have hdigit : isAsciiDigit '.' = false := by decide
  simp [head, hspace, hpoint, hdigit, hrest, hoperator]

theorem legible_star : Legible [(.operator, ['.']), (.operator, ['*'])] :=
  .cons (fun operand => by cases operand <;> decide)
    (.cons (fun operand => by cases operand <;> decide) .nil)

/-- In the code of a file the pieces are read one after the other. -/
theorem Legible.run (h : Legible later) {lexer : Lexer} (hframes : lexer.frames = [])
    (hrest : lexer.rest = spell later) :
    ∃ tokens, lexer.run = .ok (lexer.tokens.reverse ++ tokens) ∧
      tokens.map (fun token => (token.kind, token.text.toList)) = later := by
  induction h generalizing lexer with
  | nil =>
    refine ⟨[], ?_, rfl⟩
    rw [Lexer.run]
    split
    · simp [Lexer.finish, hframes]
    · simp_all [spell]
  | @cons kind c more later hhead hlater ih =>
    let next : Lexer :=
      { lexer.emit kind lexer.depth (c :: more) with frames := [], rest := spell later }
    have hstep : lexer.step c (more ++ spell later) = .ok next := by
      simp [Lexer.step, hframes, Lexer.codeStep, hhead, Lexer.countBraces, next]
    obtain ⟨tokens, hrun, htokens⟩ := @ih next rfl rfl
    refine ⟨⟨kind, String.ofList (c :: more), lexer.reached, lexer.depth⟩ :: tokens, ?_, ?_⟩
    · have hspell : lexer.rest = c :: (more ++ spell later) := hrest
      rw [Lexer.run_cons hspell, hstep, Except.bind, hrun]
      simp [next, Lexer.emit]
    · simp [htokens]

/-- A text that is written legibly, a name first, is cut into the pieces it is written with. -/
theorem Legible.exists_lex (h : Legible ((wordKind word, word) :: later)) (hname : IsName word) :
    ∃ tokens, lex (spell ((wordKind word, word) :: later)) = .ok tokens ∧
      tokens.map (fun token => (token.kind, token.text.toList)) =
        (wordKind word, word) :: later := by
  obtain ⟨c, hc, hstart⟩ := hname.head?_spell (wordKind word) later
  obtain ⟨rest, hrest⟩ := List.head?_eq_some_iff.mp hc
  have hmark : c ≠ byteOrderMark := by
    rintro rfl
    exact absurd hstart (by decide +kernel)
  have hshebang : c ≠ '#' := by
    rintro rfl
    exact absurd hstart (by decide)
  have hbegin : (Lexer.afterMark (c :: rest)).afterShebang = ⟨[], 0, [], [], c :: rest⟩ := by
    rw [Lexer.afterMark, if_neg hmark, Lexer.afterShebang]
    split
    · simp_all
    · rfl
  obtain ⟨tokens, hrun, htokens⟩ :=
    h.run (show (⟨[], 0, [], [], c :: rest⟩ : Lexer).frames = [] from rfl) hrest.symm
  exact ⟨tokens, by rw [hrest, lex, hbegin, hrun]; rfl, htokens⟩

end Writing

end UnusedImports.Token
