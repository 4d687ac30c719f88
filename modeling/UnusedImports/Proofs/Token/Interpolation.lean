import Mathlib.Data.List.Basic
import UnusedImports.Proofs.Outline.Symbol
import UnusedImports.Proofs.Token.Depth
import UnusedImports.Proofs.Token.ShortName

/-!
Nesting of interpolated expressions. Every sign that opens one is closed by the end of its form,
and between the two all tokens stand one deeper. The braces of code that stand right in an
expression, and not in a further one inside it, pair off, so the brace that closes it is the first
that has no partner there. What is read at any time is nested up to the expressions that are still
open; each move of the lexer keeps it so, and in the end none is open.
-/
namespace UnusedImports.Token

open UnusedImports.Text

def OpensBraces (token : Token) : Prop := token.kind = .interpolationStart ∧ token.text = "$\x7b"

def ClosesBraces (token : Token) : Prop := token.kind = .interpolationEnd ∧ token.text = "\x7d"

def isSignAt (token : Token) (depth : Nat) (sign : String) : Bool :=
  token.isSign sign && token.depth == depth

/-- Tokens in which the braces of code at the depth pair off, where some braces are open before the
tokens and some are open behind them. -/
inductive PairsOff (depth : Nat) : Nat → List Token → Nat → Prop
  | nil (count : Nat) : PairsOff depth count [] count
  | opening {token : Token} {rest : List Token} {count left : Nat}
      (hsign : token.isSignAt depth "\x7b" = true) (hrest : PairsOff depth (count + 1) rest left) :
      PairsOff depth count (token :: rest) left
  | closing {token : Token} {rest : List Token} {count left : Nat}
      (hsign : token.isSignAt depth "\x7d" = true) (hrest : PairsOff depth count rest left) :
      PairsOff depth (count + 1) (token :: rest) left
  | other {token : Token} {rest : List Token} {count left : Nat}
      (hopens : token.isSignAt depth "\x7b" = false)
      (hcloses : token.isSignAt depth "\x7d" = false) (hrest : PairsOff depth count rest left) :
      PairsOff depth count (token :: rest) left

/-- Tokens at the depth in which interpolated expressions nest: each is opened and closed in the
same form, with tokens one deeper in between. -/
inductive Nested : Nat → List Token → Prop
  | nil (depth : Nat) : Nested depth []
  | plain {depth : Nat} {token : Token} {rest : List Token} (hkind : ¬ token.kind.BoundsHole)
      (hdepth : token.depth = depth) (hrest : Nested depth rest) : Nested depth (token :: rest)
  | braces {depth : Nat} {opening closing : Token} {inside rest : List Token}
      (hopening : OpensBraces opening) (hclosing : ClosesBraces closing)
      (hdepth : opening.depth = depth ∧ closing.depth = depth)
      (hinside : Nested (depth + 1) inside) (hbraces : PairsOff (depth + 1) 0 inside 0)
      (hrest : Nested depth rest) : Nested depth (opening :: (inside ++ closing :: rest))
  | name {depth : Nat} {opening closing : Token} {inside rest : List Token}
      (hopening : OpensName opening) (hclosing : ClosesName closing)
      (hdepth : opening.depth = depth ∧ closing.depth = depth)
      (hinside : Nested (depth + 1) inside) (hrest : Nested depth rest) :
      Nested depth (opening :: (inside ++ closing :: rest))

section Nesting

variable {depth : Nat} {first second tokens : List Token}

theorem PairsOff.append {count middle left : Nat} (hfirst : PairsOff depth count first middle)
    (hsecond : PairsOff depth middle second left) :
    PairsOff depth count (first ++ second) left := by
  induction hfirst with
  | nil => exact hsecond
  | opening hsign _ ih => exact .opening hsign (ih hsecond)
  | closing hsign _ ih => exact .closing hsign (ih hsecond)
  | other hopens hcloses _ ih => exact .other hopens hcloses (ih hsecond)

/-- Tokens that are no operators of code at the depth leave its braces alone. -/
theorem pairsOff_of_other (count : Nat)
    (h : ∀ token ∈ tokens, token.kind = .operator → token.depth ≠ depth) :
    PairsOff depth count tokens count := by
  induction tokens with
  | nil => exact .nil count
  | cons token tokens ih =>
    have hother : ∀ sign, token.isSignAt depth sign = false := by
      intro sign
      have hdepth := h token List.mem_cons_self
      simp only [isSignAt, isSign, Bool.and_eq_false_iff, beq_eq_false_iff_ne]
      by_cases hkind : token.kind = .operator
      · exact Or.inr (hdepth hkind)
      · exact Or.inl (Or.inl hkind)
    exact .other (hother _) (hother _) (ih fun other hmem => h other (List.mem_cons_of_mem _ hmem))

theorem Nested.append (hfirst : Nested depth first) (hsecond : Nested depth second) :
    Nested depth (first ++ second) := by
  induction hfirst with
  | nil => exact hsecond
  | plain hkind hdepth _ ih => exact .plain hkind hdepth (ih hsecond)
  | braces hopening hclosing hdepth hinside hbraces _ _ ih =>
    rw [List.cons_append, List.append_assoc, List.cons_append]
    exact .braces hopening hclosing hdepth hinside hbraces (ih hsecond)
  | name hopening hclosing hdepth hinside _ _ ih =>
    rw [List.cons_append, List.append_assoc, List.cons_append]
    exact .name hopening hclosing hdepth hinside (ih hsecond)

theorem nested_of_plain
    (h : ∀ token ∈ tokens, ¬ token.kind.BoundsHole ∧ token.depth = depth) :
    Nested depth tokens := by
  induction tokens with
  | nil => exact .nil depth
  | cons token tokens ih =>
    obtain ⟨hkind, hdepth⟩ := h token List.mem_cons_self
    exact .plain hkind hdepth (ih fun other hmem => h other (List.mem_cons_of_mem _ hmem))

theorem Nested.le_depth (h : Nested depth tokens) : ∀ token ∈ tokens, depth ≤ token.depth := by
  have within : ∀ {depth : Nat} {opening closing : Token} {inside rest : List Token},
      opening.depth = depth ∧ closing.depth = depth →
      (∀ token ∈ inside, depth + 1 ≤ token.depth) → (∀ token ∈ rest, depth ≤ token.depth) →
        ∀ token ∈ opening :: (inside ++ closing :: rest), depth ≤ token.depth := by
    intro depth opening closing inside rest hdepth hinside hrest token hmem
    simp only [List.mem_cons, List.mem_append] at hmem
    rcases hmem with rfl | hmem | rfl | hmem
    · exact Nat.le_of_eq hdepth.1.symm
    · exact Nat.le_of_succ_le (hinside token hmem)
    · exact Nat.le_of_eq hdepth.2.symm
    · exact hrest token hmem
  induction h with
  | nil => simp
  | plain _ hdepth _ ih =>
    intro token hmem
    rcases List.mem_cons.mp hmem with rfl | hmem
    · exact Nat.le_of_eq hdepth.symm
    · exact ih token hmem
  | braces _ _ hdepth _ _ _ hinside hrest => exact within hdepth hinside hrest
  | name _ _ hdepth _ _ hinside hrest => exact within hdepth hinside hrest

theorem Nested.head (h : Nested depth tokens) {token : Token} (hhead : tokens.head? = some token) :
    token.depth = depth := by
  cases h with
  | nil => simp at hhead
  | plain _ hdepth _ => exact Option.some.inj hhead ▸ hdepth
  | braces _ _ hdepth _ _ _ => exact Option.some.inj hhead ▸ hdepth.1
  | name _ _ hdepth _ _ => exact Option.some.inj hhead ▸ hdepth.1

theorem Nested.getLast (h : Nested depth tokens) {token : Token}
    (hlast : tokens.getLast? = some token) : token.depth = depth := by
  have behind : ∀ {depth : Nat} {before : Token} {rest : List Token}, before.depth = depth →
      (∀ {token : Token}, rest.getLast? = some token → token.depth = depth) →
        ∀ {token : Token}, (before :: rest).getLast? = some token → token.depth = depth := by
    intro depth before rest hbefore hrest token hlast
    rw [List.getLast?_cons] at hlast
    cases hend : rest.getLast? with
    | none =>
      rw [hend] at hlast
      exact Option.some.inj hlast ▸ hbefore
    | some last =>
      rw [hend] at hlast
      exact Option.some.inj hlast ▸ hrest hend
  induction h generalizing token with
  | nil => simp at hlast
  | plain _ hdepth _ ih => exact behind hdepth ih hlast
  | @braces depth opening closing inside rest _ _ hdepth _ _ _ _ ih =>
    rw [← List.cons_append, List.getLast?_append_cons] at hlast
    exact behind hdepth.2 ih hlast
  | @name depth opening closing inside rest _ _ hdepth _ _ _ ih =>
    rw [← List.cons_append, List.getLast?_append_cons] at hlast
    exact behind hdepth.2 ih hlast

end Nesting

theorem head_brace {c : Char} (hc : c = '\x7b' ∨ c = '\x7d') (operand : Bool) (rest : List Char) :
    head operand c rest = .token .operator 0 := by
  rcases hc with rfl | rfl
  · rfl
  · rfl

/-- A token of code is a brace exactly if it starts with one. -/
theorem isSign_brace {c brace : Char} {rest : List Char} {operand : Bool} {kind : Kind} {more : Nat}
    (hhead : head operand c rest = .token kind more) (hbrace : brace = '\x7b' ∨ brace = '\x7d')
    (start depth : Nat) :
    isSign ⟨kind, String.ofList (c :: rest.take more), start, depth⟩ (String.ofList [brace]) =
      (c == brace) := by
  by_cases hc : c = brace
  · subst hc
    obtain ⟨rfl, rfl⟩ := Head.token.inj ((head_brace hbrace operand rest).symm.trans hhead)
    simp [isSign]
  · have htext : String.ofList (c :: rest.take more) ≠ String.ofList [brace] := by
      rw [ne_eq, String.ofList_inj, List.cons.injEq]
      exact fun heq => hc heq.1
    rw [isSign, beq_false_of_ne htext, beq_false_of_ne hc, Bool.and_false]

namespace Lexer

section Opening

/-- The expressions that the frames have open, in tokens with the latest first: behind the sign of
each stand nested tokens, and as many braces are open in them as the frame counts. -/
def Opened : List Frame → List Token → Prop
  | [], tokens => Nested 0 tokens.reverse
  | .literal .. :: outer, tokens => Opened outer tokens
  | .hole _ braces :: outer, tokens =>
    ∃ inside opening earlier, tokens = inside ++ opening :: earlier ∧ OpensBraces opening ∧
      opening.depth = outer.countP Frame.isHole ∧
      Nested (outer.countP Frame.isHole + 1) inside.reverse ∧
      PairsOff (outer.countP Frame.isHole + 1) 0 inside.reverse braces ∧ Opened outer earlier

variable {frames : List Frame} {tokens : List Token}

/-- Nested tokens in which the braces pair off are read inside what is open. -/
theorem Opened.extend (h : Opened frames tokens) {later : List Token}
    (hnested : Nested (frames.countP Frame.isHole) later.reverse)
    (hbraces : ∀ count, PairsOff (frames.countP Frame.isHole) count later.reverse count) :
    Opened frames (later ++ tokens) := by
  induction frames with
  | nil =>
    rw [Opened, List.reverse_append]
    exact Nested.append h hnested
  | cons frame outer ih =>
    cases frame with
    | literal quoting opened =>
      rw [countP_isHole_literal] at hnested hbraces
      exact ih h hnested hbraces
    | hole opened braces =>
      rw [countP_isHole_hole] at hnested hbraces
      obtain ⟨inside, opening, earlier, rfl, hopening, hdepth, hinside, hinsideBraces, houter⟩ := h
      refine ⟨later ++ inside, opening, earlier, by simp, hopening, hdepth, ?_, ?_, houter⟩
      · rw [List.reverse_append]
        exact hinside.append hnested
      · rw [List.reverse_append]
        exact hinsideBraces.append (hbraces braces)

/-- A token that is no operator and bounds no expression is read inside what is open. -/
theorem Opened.plain (h : Opened frames tokens) {token : Token} (hkind : ¬ token.kind.BoundsHole)
    (hdepth : token.depth = frames.countP Frame.isHole) (hoperator : token.kind ≠ .operator) :
    Opened frames (token :: tokens) := by
  rw [← List.singleton_append]
  refine h.extend (.plain hkind hdepth (.nil _)) fun count => pairsOff_of_other count ?_
  simp [hoperator]

/-- A token of code is read in the innermost expression, whose braces are counted. -/
theorem Opened.code (h : Opened frames tokens) (hcode : isCode frames = true) (token : Token)
    (hkind : ¬ token.kind.BoundsHole) (hdepth : token.depth = frames.countP Frame.isHole) {c : Char}
    (hinside : ∀ opened outer, frames = .hole opened 0 :: outer → c ≠ '\x7d')
    (hopens : token.isSign "\x7b" = (c == '\x7b')) (hcloses : token.isSign "\x7d" = (c == '\x7d')) :
    Opened (countBraces c frames) (token :: tokens) := by
  cases frames with
  | nil =>
    rw [countBraces, Opened, List.reverse_cons]
    · exact Nested.append h (.plain hkind hdepth (.nil 0))
    · simp
  | cons frame outer =>
    cases frame with
    | literal quoting opened => simp [isCode] at hcode
    | hole opened braces =>
      rw [countP_isHole_hole] at hdepth
      obtain ⟨inside, opening, earlier, rfl, hopening, hlevel, hnested, hbraces, houter⟩ := h
      refine ⟨token :: inside, opening, earlier, rfl, hopening, hlevel, ?_, ?_, houter⟩
      · rw [List.reverse_cons]
        exact hnested.append (.plain hkind hdepth (.nil _))
      · rw [List.reverse_cons]
        refine hbraces.append ?_
        have hsign : ∀ sign, token.isSignAt (outer.countP Frame.isHole + 1) sign =
            token.isSign sign := by
          intro sign
          simp [isSignAt, hdepth]
        rw [← hsign] at hopens hcloses
        unfold countBrace
        split
        · rename_i hc
          exact .opening (by simp [hopens, hc]) (.nil _)
        split
        · rename_i hc
          obtain ⟨count, rfl⟩ : ∃ count, braces = count + 1 := by
            refine Nat.exists_eq_succ_of_ne_zero ?_
            rintro rfl
            exact hinside opened outer rfl hc
          exact .closing (by simp [hcloses, hc]) (.nil _)
        · rename_i hopen hclose
          exact .other (by simp [hopens, hopen]) (by simp [hcloses, hclose]) (.nil _)

/-- An interpolated expression that is closed is read inside what is open around it. -/
theorem Opened.hole (h : Opened frames tokens) (opening closing : Token) {inside : List Token}
    (hopening : opening.kind = .interpolationStart) (hclosing : closing.kind = .interpolationEnd)
    (hinside : Nested (frames.countP Frame.isHole + 1) inside)
    (hwhole : Nested (frames.countP Frame.isHole) (opening :: (inside ++ [closing]))) :
    Opened frames (closing :: (inside.reverse ++ opening :: tokens)) := by
  have hreverse : (closing :: (inside.reverse ++ [opening])).reverse =
      opening :: (inside ++ [closing]) := by simp
  have hsplit : closing :: (inside.reverse ++ opening :: tokens) =
      (closing :: (inside.reverse ++ [opening])) ++ tokens := by simp
  rw [hsplit]
  refine h.extend (by rwa [hreverse]) fun count => ?_
  rw [hreverse]
  refine pairsOff_of_other count fun token hmem hkind => ?_
  simp only [List.mem_cons, List.mem_append, List.not_mem_nil, or_false] at hmem
  rcases hmem with rfl | hmem | rfl
  · simp [hopening] at hkind
  · exact Nat.ne_of_gt (hinside.le_depth token hmem)
  · simp [hclosing] at hkind

end Opening

section Moving

variable {text : List Char} {lexer next : Lexer} {c : Char} {rest : List Char}

def OpenedHere (lexer : Lexer) : Prop := Opened lexer.frames lexer.tokens

theorem OpenedHere.flush (h : lexer.OpenedHere) : lexer.flush.OpenedHere := by
  rw [OpenedHere, frames_flush]
  unfold Lexer.flush
  split
  · exact h
  · exact Opened.plain h (by simp [Kind.BoundsHole]) rfl (by simp)

/-- Every move keeps count of what is open. -/
theorem OpenedHere.move (h : lexer.OpenedHere) (hmove : lexer.Moves c rest next) :
    next.OpenedHere := by
  cases hmove with
  | @token kind more hcode hinside hhead =>
    have hfree := holeFree_head (operandExpected lexer.tokens) c rest
    rw [hhead] at hfree
    let token : Token := ⟨kind, String.ofList (c :: rest.take more), lexer.reached, lexer.depth⟩
    refine Opened.code h hcode token hfree rfl (fun opened outer hframes hc => ?_) ?_ ?_
    · exact hinside ⟨hc, opened, outer, hframes⟩
    · exact isSign_brace hhead (Or.inl rfl) _ _
    · exact isSign_brace hhead (Or.inr rfl) _ _
  | openLiteral _ _ _ => exact h
  | @closeHole opened outer hframes _ =>
    rw [OpenedHere, hframes] at h
    obtain ⟨inside, opening, earlier, htokens, hopening, hlevel, hnested, hbraces, houter⟩ := h
    let closing : Token := ⟨.interpolationEnd, "\x7d", lexer.reached, outer.countP Frame.isHole⟩
    have hclosed := houter.hole opening closing hopening.1 rfl hnested
      (.braces hopening ⟨rfl, rfl⟩ ⟨hlevel, rfl⟩ hnested hbraces (.nil _))
    rw [List.reverse_reverse, ← htokens] at hclosed
    exact hclosed
  | @closeLiteral quoting opened outer hframes _ =>
    rw [OpenedHere, hframes] at h
    refine Opened.plain h (by simp [Kind.BoundsHole]) ?_ (by simp)
    rw [depth, hframes, countP_isHole_literal]
  | plain _ _ _ => exact h
  | escaped _ _ _ _ => exact h
  | openHole _ _ _ _ =>
    refine ⟨[], _, lexer.flush.tokens, rfl, ⟨rfl, rfl⟩, rfl, .nil _, .nil 0, ?_⟩
    exact h.flush
  | @shortName quoting opened outer d after hframes hinterpolates hc hrest hstart =>
    obtain ⟨names, htokens, hnames⟩ := exists_names_namePath
      (lexer.flush.emit .interpolationStart lexer.flush.depth ['$']) (lexer.flush.depth + 1) after
      hstart
    have hinside : Nested (lexer.flush.depth + 1) names := by
      refine nested_of_plain fun token hmem => ?_
      obtain ⟨hdepth, hname | ⟨hkind, -⟩⟩ := hnames token hmem
      · exact ⟨hname.not_boundsHole, hdepth⟩
      · exact ⟨by simp [Kind.BoundsHole, hkind], hdepth⟩
    let opening : Token := ⟨.interpolationStart, "$", lexer.flush.reached, lexer.flush.depth⟩
    let closing : Token := ⟨.interpolationEnd, "", ((lexer.flush.emit .interpolationStart
      lexer.flush.depth ['$']).namePath (lexer.flush.depth + 1) d after).reached,
      lexer.flush.depth⟩
    have hclosed := Opened.hole h.flush opening closing rfl rfl hinside
      (.name ⟨rfl, rfl⟩ ⟨rfl, rfl⟩ ⟨rfl, rfl⟩ hinside (.nil _))
    have hframes := frames_namePath (lexer.flush.emit .interpolationStart lexer.flush.depth ['$'])
      (lexer.flush.depth + 1) d after
    rw [OpenedHere]
    simp only [Lexer.emit] at htokens hframes hclosed ⊢
    rw [hframes, htokens]
    exact hclosed

theorem Reads.opened (h : Reads text lexer) : lexer.OpenedHere := by
  induction h with
  | start =>
    rw [OpenedHere, frames_start]
    refine nested_of_plain fun token hmem => ?_
    obtain ⟨htrivia, hdepth⟩ := trivia_start text token (List.mem_reverse.mp hmem)
    refine ⟨?_, hdepth⟩
    rintro (hkind | hkind) <;> simp [isTrivia, hkind] at htrivia
  | step _ _ hstep ih => exact ih.move (moves_of_step hstep)

end Moving

end Lexer

/-- The tokens that open expressions before a position make up for those that close expressions up
to it and for the ones that are open around it. -/
theorem depth_add_countP {text : List Char} {tokens : List Token} (h : lex text = .ok tokens)
    {position : Nat} {token : Token} (htoken : tokens[position]? = some token) :
    token.depth +
        (tokens.take (position + 1)).countP (fun token => token.kind == .interpolationEnd) =
      (tokens.take position).countP fun token => token.kind == .interpolationStart := by
  have hleveled := leveled_of_lex h htoken
  obtain ⟨hposition, rfl⟩ := List.getElem?_eq_some_iff.mp htoken
  rw [List.take_succ_eq_append_getElem hposition, List.countP_append, List.countP_singleton,
    ← List.countP_reverse (l := tokens.take position),
    ← List.countP_reverse (l := tokens.take position)]
  cases hleveled with
  | plain hkind hdepth hearlier =>
    have hcount := hearlier.openCount_add_countP
    rw [if_neg (by simpa using hkind)]
    omega
  | close hkind hdepth hearlier =>
    have hcount := hearlier.openCount_add_countP
    rw [if_pos (by simpa using hkind)]
    omega

/-- Interpolated expressions nest. Each is closed in the form in which it was opened: one in braces
by a brace, with the braces of code between paired off, and one of names by an empty token. The
depth of a token is the number of expressions that are opened before it and not closed up to it, and
the first and the last token stand in none. -/
theorem nested_of_lex {text : List Char} {tokens : List Token} (h : lex text = .ok tokens) :
    Nested 0 tokens ∧
    (∀ position token, tokens[position]? = some token →
      token.depth +
          (tokens.take (position + 1)).countP (fun token => token.kind == .interpolationEnd) =
        (tokens.take position).countP fun token => token.kind == .interpolationStart) ∧
    (∀ first, tokens.head? = some first → first.depth = 0) ∧
    ∀ last, tokens.getLast? = some last → last.depth = 0 := by
  obtain ⟨last, hreads, -, hframes, htokens⟩ := Lexer.exists_reads_of_lex h
  have hopened := hreads.opened
  rw [Lexer.OpenedHere, hframes] at hopened
  have hnested : Nested 0 tokens := htokens ▸ hopened
  exact ⟨hnested, fun position token => depth_add_countP h, fun first => hnested.head,
    fun last => hnested.getLast⟩

/-- A name in a literal in a closure in a literal, and a name after the closure. -/
theorem nested_of_lex_closure :
    ∃ tokens, lex "\"$\x7b\x7b \"$b\" \x7d\x7d$c.d\"".toList = .ok tokens ∧
      (∃ token ∈ tokens, token.depth = 2) ∧ Nested 0 tokens ∧
      (∀ position token, tokens[position]? = some token →
        token.depth +
            (tokens.take (position + 1)).countP (fun token => token.kind == .interpolationEnd) =
          (tokens.take position).countP fun token => token.kind == .interpolationStart) ∧
      (∀ first, tokens.head? = some first → first.depth = 0) ∧
      ∀ last, tokens.getLast? = some last → last.depth = 0 := by
  have hrun : ((lex "\"$\x7b\x7b \"$b\" \x7d\x7d$c.d\"".toList).toOption.any fun tokens =>
      tokens.any fun token => token.depth == 2) = true := by decide +kernel
  generalize "\"$\x7b\x7b \"$b\" \x7d\x7d$c.d\"".toList = text at hrun ⊢
  cases hlex : lex text with
  | error fault => simp [hlex, Except.toOption] at hrun
  | ok tokens =>
    simp only [hlex, Except.toOption, Option.any_some, List.any_eq_true, beq_iff_eq] at hrun
    exact ⟨tokens, rfl, hrun, nested_of_lex hlex⟩

end UnusedImports.Token
