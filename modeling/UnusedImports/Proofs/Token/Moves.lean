import UnusedImports.Proofs.Token.Lexer

/-!
The moves of the lexer. A step is one of eight moves, each with the conditions under which it is
made and with what it leaves behind. A text is read by one move after the other, so what holds
before the first and is preserved by all of them holds wherever the lexer comes by, and of the
tokens of the text in the end.
-/
namespace UnusedImports.Token

open UnusedImports.Text

section Heads

def Kind.BoundsHole (kind : Kind) : Prop := kind = .interpolationStart ∨ kind = .interpolationEnd

def Head.HoleFree : Head → Prop
  | .token kind _ => ¬ kind.BoundsHole
  | .literal _ | .fault .. => True

theorem holeFree_word (word : List Char) (more : Nat) :
    (Head.token (wordKind word) more).HoleFree := by
  rcases wordKind_cases word with hword | hword
  · simp [Head.HoleFree, Kind.BoundsHole, hword]
  · simp [Head.HoleFree, Kind.BoundsHole, hword]

theorem holeFree_comment (rest : List Char) :
    Head.HoleFree
      (match commentLength? (rest.drop 1) with
        | some length => .token .comment (length + 1)
        | none => .fault .unterminatedComment rest.length) := by
  split
  · simp [Head.HoleFree, Kind.BoundsHole]
  · trivial

theorem holeFree_operator (c : Char) (rest : List Char) :
    Head.HoleFree
      (match operator? (c :: rest) with
        | some operator => .token .operator (operator.toList.length - 1)
        | none => .fault (.unexpectedCharacter c) 0) := by
  split
  · simp [Head.HoleFree, Kind.BoundsHole]
  · trivial

theorem holeFree_head (operand : Bool) (c : Char) (rest : List Char) :
    (head operand c rest).HoleFree := by
  have plain : ∀ kind more, kind = .newline ∨ kind = .blank ∨ kind = .comment ∨ kind = .number →
      (Head.token kind more).HoleFree := by
    rintro kind more (rfl | rfl | rfl | rfl) <;> simp [Head.HoleFree, Kind.BoundsHole]
  unfold head
  refine iteInduction (motive := Head.HoleFree) (fun _ => plain _ _ (by simp)) fun _ => ?_
  refine iteInduction (motive := Head.HoleFree) (fun _ => plain _ _ (by simp)) fun _ => ?_
  refine iteInduction (motive := Head.HoleFree) (fun _ => plain _ _ (by simp)) fun _ => ?_
  refine iteInduction (motive := Head.HoleFree) (fun _ => plain _ _ (by simp)) fun _ => ?_
  refine iteInduction (motive := Head.HoleFree) (fun _ => holeFree_comment rest) fun _ => ?_
  refine iteInduction (motive := Head.HoleFree) (fun _ => trivial) fun _ => ?_
  refine iteInduction (motive := Head.HoleFree) (fun _ => trivial) fun _ => ?_
  refine iteInduction (motive := Head.HoleFree) (fun _ => trivial) fun _ => ?_
  refine iteInduction (motive := Head.HoleFree) (fun _ => trivial) fun _ => ?_
  refine iteInduction (motive := Head.HoleFree) (fun _ => holeFree_word _ _) fun _ => ?_
  refine iteInduction (motive := Head.HoleFree) (fun _ => plain _ _ (by simp)) fun _ => ?_
  exact holeFree_operator c rest

end Heads

def IsName (word : List Char) : Prop :=
  ∃ c more, word = c :: more ∧ isNameStart c = true ∧ ∀ d ∈ more, isNameChar d = true

/-- The token is a name, and a keyword exactly if the name is reserved. -/
structure HoldsName (token : Token) : Prop where
  kind : token.kind = wordKind token.text.toList
  name : IsName token.text.toList

theorem holdsName_word {c : Char} (hstart : isNameStart c = true) (rest : List Char)
    (start depth : Nat) :
    let word := c :: rest.takeWhile isNameChar
    HoldsName ⟨wordKind word, String.ofList word, start, depth⟩ := by
  refine ⟨by rw [String.toList_ofList], c, rest.takeWhile isNameChar, String.toList_ofList,
    hstart, ?_⟩
  exact List.all_eq_true.mp List.all_takeWhile

theorem HoldsName.not_boundsHole {token : Token} (h : token.HoldsName) :
    ¬ token.kind.BoundsHole := by
  rw [h.kind]
  exact holeFree_word token.text.toList 0

namespace Lexer

def ClosesHole (lexer : Lexer) (c : Char) : Prop :=
  c = '\x7d' ∧ ∃ opened outer, lexer.frames = .hole opened 0 :: outer

def OpensHole (quoting : Quoting) (c next : Char) : Prop :=
  c = '$' ∧ quoting.interpolates = true ∧ (next = '\x7b' ∨ isShortNameStart next = true)

inductive Moves (lexer : Lexer) (c : Char) (rest : List Char) : Lexer → Prop
  /-- Code goes on with a token. -/
  | token {kind : Kind} {more : Nat} (hcode : isCode lexer.frames = true)
      (hinside : ¬ lexer.ClosesHole c)
      (hhead : head (operandExpected lexer.tokens) c rest = .token kind more) :
      Moves lexer c rest { lexer.emit kind lexer.depth (c :: rest.take more) with
        frames := countBraces c lexer.frames
        rest := rest.drop more }
  | openLiteral {quoting : Quoting} (hcode : isCode lexer.frames = true)
      (hinside : ¬ lexer.ClosesHole c)
      (hhead : head (operandExpected lexer.tokens) c rest = .literal quoting) :
      Moves lexer c rest { lexer with
        frames := .literal quoting lexer.reached :: lexer.frames
        piece := quoting.opening.reverse
        rest := rest.drop (quoting.opening.length - 1) }
  | closeHole {opened : Nat} {outer : List Frame} (hframes : lexer.frames = .hole opened 0 :: outer)
      (hc : c = '\x7d') :
      Moves lexer c rest ({ lexer with frames := outer, rest }.emit .interpolationEnd
        { lexer with frames := outer, rest }.depth ['\x7d'])
  | closeLiteral {quoting : Quoting} {opened : Nat} {outer : List Frame}
      (hframes : lexer.frames = .literal quoting opened :: outer)
      (hclosing : quoting.closing.isPrefixOf (c :: rest) = true) :
      Moves lexer c rest
        { lexer.emit .literal lexer.depth (lexer.piece.reverse ++ quoting.closing) with
          frames := outer
          piece := []
          rest := rest.drop (quoting.closing.length - 1) }
  /-- A character goes into a literal by itself. -/
  | plain {quoting : Quoting} {opened : Nat} {outer : List Frame}
      (hframes : lexer.frames = .literal quoting opened :: outer)
      (hclosing : quoting.closing.isPrefixOf (c :: rest) = false)
      (hnext : ∀ next, rest.head? = some next →
        quoting.escapes c next = false ∧ ¬ OpensHole quoting c next) :
      Moves lexer c rest { lexer with piece := c :: lexer.piece, rest }
  /-- A character goes into a literal together with the next one, which it escapes. -/
  | escaped {quoting : Quoting} {opened : Nat} {outer : List Frame} {next : Char}
      {after : List Char} (hframes : lexer.frames = .literal quoting opened :: outer)
      (hclosing : quoting.closing.isPrefixOf (c :: rest) = false) (hrest : rest = next :: after)
      (hescapes : quoting.escapes c next = true) :
      Moves lexer c rest { lexer with piece := next :: c :: lexer.piece, rest := after }
  | openHole {quoting : Quoting} {opened : Nat} {outer : List Frame} {after : List Char}
      (hframes : lexer.frames = .literal quoting opened :: outer)
      (hinterpolates : quoting.interpolates = true) (hc : c = '$')
      (hrest : rest = '\x7b' :: after) :
      Moves lexer c rest
        { lexer.flush.emit .interpolationStart lexer.flush.depth ['$', '\x7b'] with
          frames := .hole lexer.flush.reached 0 :: lexer.flush.frames
          rest := after }
  | shortName {quoting : Quoting} {opened : Nat} {outer : List Frame} {next : Char}
      {after : List Char} (hframes : lexer.frames = .literal quoting opened :: outer)
      (hinterpolates : quoting.interpolates = true) (hc : c = '$') (hrest : rest = next :: after)
      (hstart : isShortNameStart next = true) :
      Moves lexer c rest
        (((lexer.flush.emit .interpolationStart lexer.flush.depth ['$']).namePath
          (lexer.flush.depth + 1) next after).emit .interpolationEnd lexer.flush.depth [])

section Starts

@[simp]
theorem frames_namePath (lexer : Lexer) (depth : Nat) (c : Char) (rest : List Char) :
    (lexer.namePath depth c rest).frames = lexer.frames := by
  fun_induction Lexer.namePath lexer depth c rest with
  | case1 lexer c rest word named next after hafter hstart ih => exact ih
  | case2 => rfl
  | case3 => rfl

@[simp]
theorem piece_namePath (lexer : Lexer) (depth : Nat) (c : Char) (rest : List Char) :
    (lexer.namePath depth c rest).piece = lexer.piece := by
  fun_induction Lexer.namePath lexer depth c rest with
  | case1 lexer c rest word named next after hafter hstart ih => exact ih
  | case2 => rfl
  | case3 => rfl

theorem isNameStart_of_isShortNameStart {c : Char} (h : isShortNameStart c = true) :
    isNameStart c = true := by
  unfold isNameStart
  rw [← isShortNameStart, h, Bool.true_or]

/-- The tokens of a path are words and the points that join them. -/
theorem exists_names_namePath (lexer : Lexer) (depth : Nat) {c : Char} (rest : List Char)
    (hstart : isShortNameStart c = true) :
    ∃ names : List Token, (lexer.namePath depth c rest).tokens = names.reverse ++ lexer.tokens ∧
      ∀ token ∈ names, token.depth = depth ∧
        (token.HoldsName ∨ token.kind = .operator ∧ token.text = ".") := by
  have hword : ∀ {c : Char} (rest : List Char) (start : Nat), isShortNameStart c = true →
      let word := c :: rest.takeWhile isNameChar
      HoldsName ⟨wordKind word, String.ofList word, start, depth⟩ := by
    intro c rest start hstart
    exact holdsName_word (isNameStart_of_isShortNameStart hstart) rest start depth
  fun_induction Lexer.namePath lexer depth c rest with
  | case1 lexer c rest word named next after hafter hnext ih =>
    obtain ⟨names, htokens, hnames⟩ := ih hnext
    refine ⟨⟨wordKind word, String.ofList word, lexer.reached, depth⟩ ::
      ⟨.operator, String.ofList ['.'], named.reached, depth⟩ :: names, ?_, ?_⟩
    · rw [htokens]
      simp [named, Lexer.emit]
    · refine List.forall_mem_cons.mpr ⟨⟨rfl, Or.inl (hword rest _ hstart)⟩, ?_⟩
      exact List.forall_mem_cons.mpr ⟨⟨rfl, Or.inr ⟨rfl, rfl⟩⟩, hnames⟩
  | case2 lexer c rest word named next after hafter hnext =>
    exact ⟨[⟨wordKind word, String.ofList word, lexer.reached, depth⟩], rfl,
      List.forall_mem_singleton.mpr ⟨rfl, Or.inl (hword rest _ hstart)⟩⟩
  | case3 lexer c rest word named hne =>
    exact ⟨[⟨wordKind word, String.ofList word, lexer.reached, depth⟩], rfl,
      List.forall_mem_singleton.mpr ⟨rfl, Or.inl (hword rest _ hstart)⟩⟩

theorem frames_start (text : List Char) : (Lexer.afterMark text).afterShebang.frames = [] := by
  unfold Lexer.afterShebang
  split
  · exact frames_afterMark text
  · exact frames_afterMark text

/-- Before the first move there is only white space and a comment. -/
theorem trivia_start (text : List Char) :
    ∀ token ∈ (Lexer.afterMark text).afterShebang.tokens,
      token.isTrivia = true ∧ token.depth = 0 := by
  have hmark : ∀ token ∈ (Lexer.afterMark text).tokens,
      token.isTrivia = true ∧ token.depth = 0 := by
    unfold Lexer.afterMark
    split
    · split
      · simp [Lexer.emit, isTrivia]
      · simp
    · simp
  unfold Lexer.afterShebang
  split
  · intro token hmem
    rcases List.mem_cons.mp hmem with rfl | hmem
    · exact ⟨rfl, rfl⟩
    · exact hmark token hmem
  · exact hmark

end Starts

section Steps

variable {lexer next : Lexer} {c : Char} {rest : List Char}

theorem moves_of_codeStep (hcode : isCode lexer.frames = true) (hinside : ¬ lexer.ClosesHole c)
    (h : lexer.codeStep c rest = .ok next) : Moves lexer c rest next := by
  unfold Lexer.codeStep at h
  split at h
  · rename_i kind more hhead
    obtain rfl := Except.ok.inj h
    exact .token hcode hinside hhead
  · rename_i quoting hhead
    obtain rfl := Except.ok.inj h
    exact .openLiteral hcode hinside hhead
  · simp at h

theorem moves_of_literalStep {quoting : Quoting} {opened : Nat} {outer : List Frame}
    (hframes : lexer.frames = .literal quoting opened :: outer)
    (h : lexer.literalStep quoting opened outer c rest = .ok next) : Moves lexer c rest next := by
  unfold Lexer.literalStep at h
  split at h
  · rename_i hclosing
    obtain rfl := Except.ok.inj h
    exact .closeLiteral hframes hclosing
  rename_i hclosing
  rw [Bool.not_eq_true] at hclosing
  split at h
  · simp at h
  cases rest with
  | nil =>
    obtain rfl := Except.ok.inj h
    exact .plain hframes hclosing (by simp)
  | cons d after =>
    simp only at h
    split at h
    · rename_i hescapes
      obtain rfl := Except.ok.inj h
      exact .escaped hframes hclosing rfl hescapes
    rename_i hescapes
    split at h
    · rename_i hhole
      obtain rfl := Except.ok.inj h
      obtain ⟨rfl, hinterpolates, rfl⟩ := hhole
      exact .openHole hframes hinterpolates rfl rfl
    rename_i hhole
    split at h
    · rename_i hname
      obtain rfl := Except.ok.inj h
      obtain ⟨rfl, hinterpolates, hstart⟩ := hname
      exact .shortName hframes hinterpolates rfl rfl hstart
    · rename_i hname
      obtain rfl := Except.ok.inj h
      refine .plain hframes hclosing fun next hnext => ?_
      obtain rfl := Option.some.inj hnext
      refine ⟨by simpa using hescapes, ?_⟩
      rintro ⟨hc, hinterpolates, hbrace | hstart⟩
      · exact hhole ⟨hc, hinterpolates, hbrace⟩
      · exact hname ⟨hc, hinterpolates, hstart⟩

/-- Every step is a move. -/
theorem moves_of_step (h : lexer.step c rest = .ok next) : Moves lexer c rest next := by
  unfold Lexer.step at h
  split at h
  · rename_i quoting opened outer hframes
    exact moves_of_literalStep hframes h
  · rename_i opened outer hframes
    split at h
    · rename_i hc
      obtain rfl := Except.ok.inj h
      exact hc ▸ .closeHole hframes rfl
    · rename_i hc
      exact moves_of_codeStep (by rw [hframes]; rfl) (fun hcloses => hc hcloses.1) h
  · rename_i hliteral hhole
    refine moves_of_codeStep ?_ ?_ h
    · unfold isCode
      split
      · rename_i quoting opened outer hframes
        exact absurd hframes (hliteral quoting opened outer)
      · rfl
    · rintro ⟨-, opened, outer, hframes⟩
      exact hhole opened outer hframes

theorem exists_made_flush (lexer : Lexer) : ∃ made, lexer.flush.tokens = made ++ lexer.tokens := by
  unfold Lexer.flush
  split
  · exact ⟨[], rfl⟩
  · exact ⟨[_], rfl⟩

theorem exists_made_shortName (lexer : Lexer) (depth : Nat) {c : Char} (rest : List Char)
    (hstart : isShortNameStart c = true) :
    ∃ made, (((lexer.emit .interpolationStart depth ['$']).namePath (depth + 1) c rest).emit
      .interpolationEnd depth []).tokens = made ++ lexer.tokens := by
  obtain ⟨names, hnames, -⟩ :=
    exists_names_namePath (lexer.emit .interpolationStart depth ['$']) (depth + 1) rest hstart
  generalize (lexer.emit .interpolationStart depth ['$']).namePath (depth + 1) c rest = path
    at hnames ⊢
  refine ⟨⟨.interpolationEnd, "", path.reached, depth⟩ ::
    (names.reverse ++ [⟨.interpolationStart, "$", lexer.reached, depth⟩]), ?_⟩
  rw [List.cons_append, List.append_assoc, List.singleton_append]
  exact congrArg (_ :: ·) hnames

/-- A move makes further tokens or none. -/
theorem Moves.exists_made (h : Moves lexer c rest next) :
    ∃ made, next.tokens = made ++ lexer.tokens := by
  cases h with
  | token _ _ _ => exact ⟨[_], rfl⟩
  | openLiteral _ _ _ => exact ⟨[], rfl⟩
  | closeHole _ _ => exact ⟨[_], rfl⟩
  | closeLiteral _ _ => exact ⟨[_], rfl⟩
  | plain _ _ _ => exact ⟨[], rfl⟩
  | escaped _ _ _ _ => exact ⟨[], rfl⟩
  | openHole _ _ _ _ =>
    obtain ⟨made, hmade⟩ := exists_made_flush lexer
    exact ⟨_ :: made, congrArg (_ :: ·) hmade⟩
  | shortName _ _ _ _ hstart =>
    obtain ⟨made, hmade⟩ := exists_made_flush lexer
    obtain ⟨path, hpath⟩ := exists_made_shortName lexer.flush lexer.flush.depth _ hstart
    exact ⟨path ++ made, by rw [hpath, hmade, List.append_assoc]⟩

inductive Reads (text : List Char) : Lexer → Prop
  | start : Reads text (Lexer.afterMark text).afterShebang
  | step {lexer next : Lexer} {c : Char} {rest : List Char} (h : Reads text lexer)
      (hrest : lexer.rest = c :: rest) (hstep : lexer.step c rest = .ok next) : Reads text next

variable {text : List Char}

theorem Reads.invariant (h : Reads text lexer) : Invariant text lexer := by
  induction h with
  | start => exact (Invariant.afterMark text).afterShebang (frames_afterMark text)
  | step _ hrest hstep ih => exact ih.step hrest hstep

theorem exists_reads_of_run (h : Reads text lexer) {tokens : List Token}
    (hrun : lexer.run = .ok tokens) :
    ∃ last, Reads text last ∧ last.rest = [] ∧ last.frames = [] ∧
      tokens = last.tokens.reverse := by
  fun_induction Lexer.run lexer with
  | case1 lexer hrest =>
    unfold Lexer.finish at hrun
    split at hrun
    · rename_i hframes
      exact ⟨lexer, h, hrest, hframes, (Except.ok.inj hrun).symm⟩
    · simp at hrun
    · simp at hrun
  | case2 => simp at hrun
  | case3 lexer c rest hrest next hstep ih => exact ih (h.step hrest hstep) hrun

/-- What is read of a text from any of these states on is what is read of it. -/
theorem Reads.lex_eq (h : Reads text lexer) : lex text = lexer.run := by
  induction h with
  | start => rfl
  | step _ hrest hstep ih => rw [ih, run_cons hrest, hstep, Except.bind]

theorem exists_later_of_run {tokens : List Token} (hrun : lexer.run = .ok tokens) :
    ∃ later, tokens = lexer.tokens.reverse ++ later := by
  fun_induction Lexer.run lexer with
  | case1 lexer hrest =>
    unfold Lexer.finish at hrun
    split at hrun
    · exact ⟨[], by rw [List.append_nil, Except.ok.inj hrun]⟩
    · simp at hrun
    · simp at hrun
  | case2 => simp at hrun
  | case3 lexer c rest hrest next hstep ih =>
    obtain ⟨later, hlater⟩ := ih hrun
    obtain ⟨made, hmade⟩ := (moves_of_step hstep).exists_made
    exact ⟨made.reverse ++ later, by rw [hlater, hmade, List.reverse_append, List.append_assoc]⟩

/-- The tokens of a text are those of the state in which the lexer has read it. -/
theorem exists_reads_of_lex {tokens : List Token} (h : lex text = .ok tokens) :
    ∃ last, Reads text last ∧ last.rest = [] ∧ last.frames = [] ∧
      tokens = last.tokens.reverse :=
  exists_reads_of_run .start h

/-- A token and those before it are among the latest in that state. -/
theorem exists_reads_of_getElem? {tokens : List Token} (h : lex text = .ok tokens) {position : Nat}
    {token : Token} (htoken : tokens[position]? = some token) :
    ∃ last later, Reads text last ∧
      last.tokens = later ++ token :: (tokens.take position).reverse := by
  obtain ⟨last, hreads, -, -, htokens⟩ := exists_reads_of_lex h
  obtain ⟨hposition, rfl⟩ := List.getElem?_eq_some_iff.mp htoken
  refine ⟨last, (tokens.drop (position + 1)).reverse, hreads, ?_⟩
  rw [← List.reverse_reverse last.tokens, ← htokens]
  conv => lhs; rw [← List.take_append_drop position tokens, List.drop_eq_getElem_cons hposition]
  simp

end Steps

end Lexer

end UnusedImports.Token
