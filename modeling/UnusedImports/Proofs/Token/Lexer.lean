import UnusedImports.Proofs.Token.Shape

/-!
What the lexer leaves behind. Between two steps the tokens made so far cover the text up to
where the lexer has come, each of them has the shape of its kind, and the literal piece under
way starts with a delimiter or right after an interpolated expression. Every step preserves
this, so the tokens of a text cover it as a whole.
-/
namespace UnusedImports.Token

open UnusedImports.Text

def part (token : Token) : Nat × List Char := (token.start, token.text.toList)

namespace Lexer

/-- The tokens cover a text up to an offset, from which on some characters remain. -/
structure Laid (text : List Char) (tokens : List Token) (reached : Nat)
    (remaining : List Char) : Prop where
  covers : ∀ parts, Covers reached remaining parts →
    Covers 0 text (tokens.reverse.map part ++ parts)
  sound : Sound tokens

section Laying

variable {text remaining : List Char} {lexer : Lexer}

theorem Laid.emit (kind : Kind) (depth : Nat) {word : List Char}
    (h : Laid text lexer.tokens lexer.reached (word ++ remaining))
    (hfits : Fits lexer.tokens ⟨kind, String.ofList word, lexer.reached, depth⟩)
    (hopen : lexer.tokens.head?.any isOpen = true → kind = .interpolationStart) :
    Laid text (lexer.emit kind depth word).tokens (lexer.emit kind depth word).reached
      remaining where
  covers := by
    intro parts hparts
    have hcovers := h.covers ((lexer.reached, word) :: parts) ⟨rfl, remaining, rfl, hparts⟩
    simpa [Lexer.emit, part] using hcovers
  sound := Sound.cons hfits hopen h.sound

def AwaitsName (tokens : List Token) : Prop :=
  (∃ opening earlier, tokens = opening :: earlier ∧ opening.kind = .interpolationStart) ∨
    ∃ dot earlier, tokens = dot :: earlier ∧ (dot.kind = .operator ∧ dot.text = ".") ∧ Path earlier

theorem AwaitsName.path {tokens : List Token} (h : AwaitsName tokens) {word : Token}
    (hword : word.kind = .identifier ∨ word.kind = .keyword) : Path (word :: tokens) := by
  rcases h with ⟨opening, earlier, rfl, hopening⟩ | ⟨dot, earlier, rfl, hdot, hearlier⟩
  · exact Path.first hword hopening
  · exact Path.next hword hdot hearlier

theorem AwaitsName.not_isOpen {tokens : List Token} (h : AwaitsName tokens) :
    tokens.head?.any isOpen = false := by
  rcases h with ⟨opening, earlier, rfl, hopening⟩ | ⟨dot, earlier, rfl, hdot, -⟩
  · simp [isOpen, hopening]
  · simp [isOpen, hdot.1]

theorem kind_word (word : List Char) :
    wordKind word = .identifier ∨ wordKind word = .keyword := (wordKind_cases word).symm

theorem Laid.name {c : Char} {rest : List Char}
    (h : Laid text lexer.tokens lexer.reached (c :: rest)) (hawaits : AwaitsName lexer.tokens)
    (hc : isSpacing c = false) (depth : Nat) :
    Laid text
        (lexer.emit (wordKind (c :: rest.takeWhile isNameChar)) depth
          (c :: rest.takeWhile isNameChar)).tokens
        (lexer.emit (wordKind (c :: rest.takeWhile isNameChar)) depth
          (c :: rest.takeWhile isNameChar)).reached
        (rest.dropWhile isNameChar) ∧
      Path (lexer.emit (wordKind (c :: rest.takeWhile isNameChar)) depth
        (c :: rest.takeWhile isNameChar)).tokens := by
  refine ⟨Laid.emit _ depth ?_ (fits_word _ _ _ _ hc) ?_, hawaits.path (kind_word _)⟩
  · rw [List.cons_append, List.takeWhile_append_dropWhile]
    exact h
  · intro hopen
    simp [hawaits.not_isOpen] at hopen

theorem Laid.namePath {c : Char} {rest : List Char}
    (h : Laid text lexer.tokens lexer.reached (c :: rest)) (depth : Nat)
    (hawaits : AwaitsName lexer.tokens) (hc : isSpacing c = false) :
    Laid text (lexer.namePath depth c rest).tokens (lexer.namePath depth c rest).reached
        (lexer.namePath depth c rest).rest ∧
      Path (lexer.namePath depth c rest).tokens ∧
      (lexer.namePath depth c rest).frames = lexer.frames ∧
      (lexer.namePath depth c rest).piece = lexer.piece := by
  fun_induction Lexer.namePath lexer depth c rest with
  | case1 lexer c rest word named next after hafter hstart ih =>
    obtain ⟨hlaid, hpath⟩ := h.name hawaits hc depth
    rw [hafter] at hlaid
    refine ih (Laid.emit .operator depth hlaid ?_ ?_) ?_ (isSpacing_of_isShortNameStart hstart)
    · exact fits_of_spell _ _ _ (by simp) (by simp) (by simp [isSpacing, isSpaceOrTab])
    · intro hopen
      simp [named, word, hpath.not_isOpen] at hopen
    · exact Or.inr ⟨_, _, rfl, ⟨rfl, rfl⟩, hpath⟩
  | case2 lexer c rest word named next after hafter hstart =>
    obtain ⟨hlaid, hpath⟩ := h.name hawaits hc depth
    rw [hafter] at hlaid
    exact ⟨hlaid, hpath, rfl, rfl⟩
  | case3 lexer c rest word named hne =>
    obtain ⟨hlaid, hpath⟩ := h.name hawaits hc depth
    exact ⟨hlaid, hpath, rfl, rfl⟩

end Laying

def isCode : List Frame → Bool
  | .literal .. :: _ => false
  | _ => true

def Alternates : List Frame → Prop
  | [] => True
  | .literal .. :: outer => isCode outer = true ∧ Alternates outer
  | .hole .. :: outer => Alternates outer

structure Invariant (text : List Char) (lexer : Lexer) : Prop where
  laid : Laid text lexer.tokens lexer.reached (lexer.piece.reverse ++ lexer.rest)
  closed : lexer.tokens.head?.any isOpen = false
  alternates : Alternates lexer.frames
  piece_nil : isCode lexer.frames = true → lexer.piece = []
  piece_first : isCode lexer.frames = false →
    lexer.piece.getLast?.any (fun c => !isSpacing c) = true ∨
      lexer.tokens.head?.any (fun last => last.kind == .interpolationEnd) = true

section Steps

variable {text : List Char} {lexer next : Lexer} {c : Char} {rest : List Char}

theorem alternates_countBraces {frames : List Frame} (h : Alternates frames) (c : Char) :
    Alternates (countBraces c frames) := by
  unfold countBraces
  split
  · exact h
  · exact h

@[simp]
theorem isCode_countBraces (c : Char) (frames : List Frame) :
    isCode (countBraces c frames) = isCode frames := by
  unfold countBraces
  split
  · rfl
  · rfl

/-- A token that is no piece of a literal does not go on. -/
theorem not_isOpen_emit {kind : Kind} (hkind : kind ≠ .literal) (depth : Nat) (word : List Char) :
    (lexer.emit kind depth word).tokens.head?.any isOpen = false := by
  simp [Lexer.emit, isOpen, hkind]

theorem opening_first (quoting : Quoting) :
    quoting.opening.reverse.getLast?.any (fun c => !isSpacing c) = true := by
  cases quoting <;> rfl

theorem Invariant.emitCode (h : Invariant text lexer) (hcode : isCode lexer.frames = true)
    {frames : List Frame} (halternates : Alternates frames) (hframes : isCode frames = true)
    {kind : Kind} {depth : Nat} {word later : List Char} (hrest : lexer.rest = word ++ later)
    (hfits : Fits lexer.tokens ⟨kind, String.ofList word, lexer.reached, depth⟩)
    (hkind : kind ≠ .literal) :
    Invariant text { lexer.emit kind depth word with frames := frames, rest := later } := by
  have hnil : lexer.piece = [] := h.piece_nil hcode
  have hlaid : Laid text lexer.tokens lexer.reached (word ++ later) := by
    simpa [hnil, hrest] using h.laid
  refine ⟨?_, not_isOpen_emit hkind _ _, halternates, fun _ => hnil, by simp [hframes]⟩
  have hnext := hlaid.emit kind depth hfits (by simp [h.closed])
  simpa [hnil, Lexer.emit] using hnext

theorem Invariant.codeStep (h : Invariant text lexer) (hrest : lexer.rest = c :: rest)
    (hcode : isCode lexer.frames = true) (hstep : lexer.codeStep c rest = .ok next) :
    Invariant text next := by
  have hnil : lexer.piece = [] := h.piece_nil hcode
  have hlaid : Laid text lexer.tokens lexer.reached (c :: rest) := by
    simpa [hnil, hrest] using h.laid
  have hdelivers := delivers_head (operandExpected lexer.tokens) c rest
  unfold Lexer.codeStep at hstep
  split at hstep
  · rename_i kind more hhead
    obtain rfl := Except.ok.inj hstep
    rw [hhead] at hdelivers
    obtain ⟨hkind, hfits⟩ := hdelivers
    exact h.emitCode hcode (alternates_countBraces h.alternates c) (by simpa using hcode)
      (by simp [hrest]) (hfits _ _ _) hkind
  · rename_i quoting hhead
    obtain rfl := Except.ok.inj hstep
    rw [hhead] at hdelivers
    refine ⟨?_, h.closed, ⟨hcode, h.alternates⟩, by simp [isCode],
      fun _ => Or.inl (opening_first quoting)⟩
    rw [List.reverse_reverse]
    exact (show c :: rest = _ from hdelivers) ▸ hlaid
  · simp at hstep

theorem fits_piece {piece : List Char} (more : List Char) {earlier : List Token}
    (start depth : Nat)
    (hfirst : piece.getLast?.any (fun c => !isSpacing c) = true ∨
      earlier.head?.any (fun last => last.kind == .interpolationEnd) = true)
    (hmore : piece = [] → more.head?.any (fun c => !isSpacing c) = true) :
    Fits earlier ⟨.literal, String.ofList (piece.reverse ++ more), start, depth⟩ := by
  have hhead : (piece.reverse ++ more).head? = piece.getLast?.or more.head? := by
    rw [List.head?_append, List.head?_reverse]
  refine ⟨?_, ?_⟩
  · rw [String.toList_ofList]
    intro hnil
    obtain ⟨hpiece, hmore'⟩ := List.append_eq_nil_iff.mp hnil
    have hnonempty := hmore (List.reverse_eq_nil_iff.mp hpiece)
    simp [hmore'] at hnonempty
  · rw [String.toList_ofList, hhead]
    intro hspacing
    rcases hfirst with hfirst | hfirst
    · cases hlast : piece.getLast? with
      | none => simp [hlast] at hfirst
      | some last => simp_all
    · exact hfirst

theorem piece_first_cons {piece : List Char} {earlier : List Token} (c : Char)
    (h : piece.getLast?.any (fun c => !isSpacing c) = true ∨
      earlier.head?.any (fun last => last.kind == .interpolationEnd) = true) :
    (c :: piece).getLast?.any (fun c => !isSpacing c) = true ∨
      earlier.head?.any (fun last => last.kind == .interpolationEnd) = true := by
  rcases h with h | h
  · left
    rw [List.getLast?_cons]
    cases hlast : piece.getLast? with
    | none => simp [hlast] at h
    | some last => simpa [hlast] using h
  · exact Or.inr h

theorem Invariant.extend (h : Invariant text lexer) (hliteral : isCode lexer.frames = false)
    (read : List Char) {later : List Char} (hrest : lexer.rest = read ++ later) :
    Invariant text { lexer with piece := read.reverse ++ lexer.piece, rest := later } where
  laid := by
    have hlaid := h.laid
    rw [hrest] at hlaid
    simpa using hlaid
  closed := h.closed
  alternates := h.alternates
  piece_nil := by simp [hliteral]
  piece_first := by
    intro _
    induction read.reverse with
    | nil => exact h.piece_first hliteral
    | cons c read ih => exact piece_first_cons c ih

@[simp]
theorem frames_flush (lexer : Lexer) : lexer.flush.frames = lexer.frames := by
  unfold Lexer.flush
  split <;> rfl

@[simp]
theorem piece_flush (lexer : Lexer) : lexer.flush.piece = [] := by
  unfold Lexer.flush
  split
  · rename_i hempty
    simpa using hempty
  · rfl

theorem Invariant.flush (h : Invariant text lexer) (hliteral : isCode lexer.frames = false) :
    Laid text lexer.flush.tokens lexer.flush.reached lexer.rest := by
  unfold Lexer.flush
  split
  · rename_i hempty
    have hnil : lexer.piece = [] := by simpa using hempty
    simpa [hnil] using h.laid
  · rename_i hpiece
    refine Laid.emit .literal lexer.depth h.laid ?_ (by simp [h.closed])
    have hfits := fits_piece [] lexer.reached lexer.depth (h.piece_first hliteral)
      (fun hnil => absurd hnil (by simpa using hpiece))
    rw [List.append_nil] at hfits
    exact hfits

theorem closing_ends (quoting : Quoting) : quoting.closing ≠ [] ∧
    quoting.closing.head?.any (fun c => !isSpacing c) = true ∧
    quoting.closing.getLast?.any isSpacing = false := by
  cases quoting <;> exact ⟨by simp [Quoting.closing], rfl, rfl⟩

theorem Invariant.close (h : Invariant text lexer) (hrest : lexer.rest = c :: rest)
    {quoting : Quoting} {opened : Nat} {outer : List Frame}
    (hframes : lexer.frames = .literal quoting opened :: outer)
    (hclosing : quoting.closing.isPrefixOf (c :: rest) = true) :
    Invariant text { lexer.emit .literal lexer.depth (lexer.piece.reverse ++ quoting.closing) with
      frames := outer
      piece := []
      rest := rest.drop (quoting.closing.length - 1) } := by
  obtain ⟨hne, hfirst, hlast⟩ := closing_ends quoting
  have halternates : Alternates (.literal quoting opened :: outer) := hframes ▸ h.alternates
  have hpiece := h.piece_first (by rw [hframes]; rfl)
  refine ⟨?_, ?_, halternates.2, fun _ => rfl, ?_⟩
  · refine Laid.emit .literal lexer.depth ?_ (fits_piece _ _ _ hpiece fun _ => hfirst)
      (by simp [h.closed])
    rw [List.append_assoc]
    have hlaid := h.laid
    rw [hrest, (take_of_isPrefixOf hclosing hne).1] at hlaid
    exact hlaid
  · have hend : (lexer.piece.reverse ++ quoting.closing).getLast? = quoting.closing.getLast? := by
      rw [List.getLast?_append, List.getLast?_eq_some_getLast hne, Option.some_or]
    simp only [Lexer.emit, List.head?_cons, Option.any_some, isOpen, String.toList_ofList, hend,
      hlast, Bool.and_false]
  · intro hliteral
    rw [halternates.1] at hliteral
    simp at hliteral

theorem Invariant.openHole (h : Invariant text lexer) (hliteral : isCode lexer.frames = false)
    {after : List Char} (hrest : lexer.rest = '$' :: '\x7b' :: after) :
    Invariant text { lexer.flush.emit .interpolationStart lexer.flush.depth ['$', '\x7b'] with
      frames := .hole lexer.flush.reached 0 :: lexer.flush.frames
      rest := after } := by
  refine ⟨?_, not_isOpen_emit (by simp) _ _, ?_, fun _ => piece_flush lexer, by simp [isCode]⟩
  · have hlaid := h.flush hliteral
    rw [hrest] at hlaid
    rw [show '$' :: '\x7b' :: after = ['$', '\x7b'] ++ after from rfl] at hlaid
    have hnext := Laid.emit .interpolationStart lexer.flush.depth hlaid
      (fits_of_spell _ _ _ (by simp) (by simp) (by simp [isSpacing, isSpaceOrTab])) (by simp)
    simpa [Lexer.emit] using hnext
  · rw [frames_flush]
    exact h.alternates

/-- A name is interpolated together with the names joined to it. -/
theorem Invariant.shortName (h : Invariant text lexer) (hliteral : isCode lexer.frames = false)
    {d : Char} {after : List Char} (hrest : lexer.rest = '$' :: d :: after)
    (hname : isShortNameStart d = true) :
    Invariant text
      (((lexer.flush.emit .interpolationStart lexer.flush.depth ['$']).namePath
        (lexer.flush.depth + 1) d after).emit .interpolationEnd lexer.flush.depth []) := by
  have hlaid := h.flush hliteral
  rw [hrest] at hlaid
  rw [show '$' :: d :: after = ['$'] ++ d :: after from rfl] at hlaid
  have hstart := Laid.emit .interpolationStart lexer.flush.depth hlaid
    (fits_of_spell _ _ _ (by simp) (by simp) (by simp [isSpacing, isSpaceOrTab])) (by simp)
  obtain ⟨hnames, hpath, hframes, hpiece⟩ := hstart.namePath (lexer.flush.depth + 1)
    (Or.inl ⟨_, _, rfl, rfl⟩) (isSpacing_of_isShortNameStart hname)
  have hpiece := hpiece.trans (piece_flush lexer)
  have hframes := hframes.trans (frames_flush lexer)
  generalize (lexer.flush.emit .interpolationStart lexer.flush.depth ['$']).namePath
    (lexer.flush.depth + 1) d after = named at *
  refine ⟨?_, not_isOpen_emit (by simp) _ _, ?_, fun _ => hpiece, fun _ => Or.inr rfl⟩
  · rw [← List.nil_append named.rest] at hnames
    have hend := Laid.emit .interpolationEnd lexer.flush.depth hnames (Or.inr ⟨by simp, hpath⟩)
      (by simp [hpath.not_isOpen])
    simpa [Lexer.emit, hpiece] using hend
  · exact hframes.symm ▸ h.alternates

theorem Invariant.literalStep (h : Invariant text lexer) (hrest : lexer.rest = c :: rest)
    {quoting : Quoting} {opened : Nat} {outer : List Frame}
    (hframes : lexer.frames = .literal quoting opened :: outer)
    (hstep : lexer.literalStep quoting opened outer c rest = .ok next) : Invariant text next := by
  have hliteral : isCode lexer.frames = false := by rw [hframes]; rfl
  unfold Lexer.literalStep at hstep
  split at hstep
  · rename_i hclosing
    obtain rfl := Except.ok.inj hstep
    exact h.close hrest hframes hclosing
  split at hstep
  · simp at hstep
  cases rest with
  | nil =>
    obtain rfl := Except.ok.inj hstep
    exact h.extend hliteral [c] hrest
  | cons d after =>
    simp only at hstep
    split at hstep
    · obtain rfl := Except.ok.inj hstep
      exact h.extend hliteral [c, d] hrest
    split at hstep
    · rename_i hhole
      obtain rfl := Except.ok.inj hstep
      obtain ⟨rfl, -, rfl⟩ := hhole
      exact h.openHole hliteral hrest
    split at hstep
    · rename_i hname
      obtain rfl := Except.ok.inj hstep
      obtain ⟨rfl, -, hname⟩ := hname
      exact h.shortName hliteral hrest hname
    · obtain rfl := Except.ok.inj hstep
      exact h.extend hliteral [c] hrest

theorem Invariant.closeHole (h : Invariant text lexer) (hrest : lexer.rest = '\x7d' :: rest)
    {opened braces : Nat} {outer : List Frame}
    (hframes : lexer.frames = .hole opened braces :: outer) (depth : Nat) :
    Invariant text
      ({ lexer with frames := outer, rest }.emit .interpolationEnd depth ['\x7d']) := by
  have hnil : lexer.piece = [] := h.piece_nil (by rw [hframes]; rfl)
  have hlaid : Laid text lexer.tokens lexer.reached (['\x7d'] ++ rest) := by
    simpa [hnil, hrest] using h.laid
  have halternates : Alternates (.hole opened braces :: outer) := hframes ▸ h.alternates
  refine ⟨?_, not_isOpen_emit (by simp) _ _, halternates, fun _ => hnil, fun _ => Or.inr rfl⟩
  have hend := Laid.emit .interpolationEnd depth hlaid (Or.inl (by simp)) (by simp [h.closed])
  simpa [Lexer.emit, hnil] using hend

/-- Every step preserves the invariant. -/
theorem Invariant.step (h : Invariant text lexer) (hrest : lexer.rest = c :: rest)
    (hstep : lexer.step c rest = .ok next) : Invariant text next := by
  unfold Lexer.step at hstep
  split at hstep
  · rename_i quoting opened outer hframes
    exact h.literalStep hrest hframes hstep
  · rename_i opened outer hframes
    split at hstep
    · rename_i hbrace
      obtain rfl := Except.ok.inj hstep
      subst hbrace
      exact h.closeHole hrest hframes _
    · exact h.codeStep hrest (by rw [hframes]; rfl) hstep
  · rename_i hliteral _
    refine h.codeStep hrest ?_ hstep
    unfold isCode
    split
    · rename_i quoting opened outer hframes
      exact absurd hframes (hliteral quoting opened outer)
    · rfl

theorem run_cons (h : lexer.rest = c :: rest) : lexer.run = (lexer.step c rest).bind run := by
  rw [run]
  split
  · simp_all
  · rename_i heq
    obtain ⟨rfl, rfl⟩ := List.cons.inj (h.symm.trans heq)
    split
    · rename_i hstep
      rw [hstep]
      rfl
    · rename_i hstep
      rw [hstep]
      rfl

/-- What holds of the tokens of a text. -/
theorem Invariant.run (h : Invariant text lexer) {tokens : List Token}
    (hrun : lexer.run = .ok tokens) :
    Covers 0 text (tokens.map part) ∧ Sound tokens.reverse ∧
      tokens.getLast?.any isOpen = false := by
  fun_induction Lexer.run lexer with
  | case1 lexer hrest =>
    unfold Lexer.finish at hrun
    split at hrun
    · rename_i hframes
      obtain rfl := Except.ok.inj hrun
      have hnil : lexer.piece = [] := h.piece_nil (by rw [hframes]; rfl)
      refine ⟨?_, ?_, ?_⟩
      · have hcovers := h.laid.covers [] (by rw [hnil, hrest]; rfl)
        simpa using hcovers
      · rw [List.reverse_reverse]
        exact h.laid.sound
      · rw [List.getLast?_reverse]
        exact h.closed
    · simp at hrun
    · simp at hrun
  | case2 => simp at hrun
  | case3 lexer c rest hrest next hstep ih => exact ih (h.step hrest hstep) hrun

theorem Invariant.start (text : List Char) : Invariant text ⟨[], 0, [], [], text⟩ where
  laid := ⟨fun parts hparts => hparts, Sound.nil⟩
  closed := rfl
  alternates := trivial
  piece_nil := fun _ => rfl
  piece_first := by simp [isCode]

theorem frames_afterMark (text : List Char) : (afterMark text).frames = [] := by
  unfold afterMark
  split
  · split <;> rfl
  · rfl

theorem Invariant.afterMark (text : List Char) : Invariant text (Lexer.afterMark text) := by
  unfold Lexer.afterMark
  split
  · rename_i c rest
    split
    · rename_i hmark
      change Invariant _ { Lexer.emit ⟨[], 0, [], [], c :: rest⟩ .blank 0 [c] with
        frames := []
        rest := rest }
      refine (Invariant.start (c :: rest)).emitCode rfl (show Alternates [] from trivial) rfl rfl
        ⟨by simp, ?_⟩ (by simp)
      simp [hmark, byteOrderMark]
    · exact Invariant.start _
  · exact Invariant.start _

/-- A first line that names an interpreter is a comment. -/
theorem Invariant.afterShebang (h : Invariant text lexer) (hcode : lexer.frames = []) :
    Invariant text lexer.afterShebang := by
  unfold Lexer.afterShebang
  split
  · rename_i rest hrest
    refine h.emitCode (by rw [hcode]; rfl) h.alternates (by rw [hcode]; rfl) ?_
      (fits_lineComment _ _ _ rfl) (by simp)
    rw [hrest, List.cons_append, List.take_append_drop]
  · exact h

end Steps

end Lexer

/-- The tokens of a text cover it, and each has the shape of its kind. -/
theorem covers_lex {text : List Char} {tokens : List Token} (h : lex text = .ok tokens) :
    Covers 0 text (tokens.map part) ∧ Sound tokens.reverse ∧
      tokens.getLast?.any isOpen = false :=
  ((Lexer.Invariant.afterMark text).afterShebang (Lexer.frames_afterMark text)).run h

end UnusedImports.Token
