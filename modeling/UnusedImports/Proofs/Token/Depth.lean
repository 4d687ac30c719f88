import UnusedImports.Proofs.Token.Moves

/-!
Depth of tokens. The depth of a token is the number of interpolated expressions that are open
before it, where the end of an expression counts as outside. So a token at a positive depth stands
behind the sign that opened the outermost of these expressions, and all tokens after that sign
stand inside.
-/
namespace UnusedImports.Token

open UnusedImports.Text

def openCount : List Token → Nat
  | [] => 0
  | token :: earlier =>
    match token.kind with
    | .interpolationStart => openCount earlier + 1
    | .interpolationEnd => openCount earlier - 1
    | _ => openCount earlier

/-- Tokens, the latest first, each of which stands at the depth that the ones before it leave; the
end of an interpolated expression stands outside. -/
inductive Leveled : List Token → Prop
  | nil : Leveled []
  | plain {token : Token} {earlier : List Token} (hkind : token.kind ≠ .interpolationEnd)
      (hdepth : openCount earlier = token.depth) (hearlier : Leveled earlier) :
      Leveled (token :: earlier)
  | close {token : Token} {earlier : List Token} (hkind : token.kind = .interpolationEnd)
      (hdepth : openCount earlier = token.depth + 1) (hearlier : Leveled earlier) :
      Leveled (token :: earlier)

structure LeveledAt (tokens : List Token) (depth : Nat) : Prop where
  leveled : Leveled tokens
  count : openCount tokens = depth

section Levels

variable {tokens : List Token} {depth : Nat}

theorem openCount_of_not_boundsHole {token : Token} (h : ¬ token.kind.BoundsHole) :
    openCount (token :: tokens) = openCount tokens := by
  simp only [Kind.BoundsHole, not_or] at h
  rw [openCount]
  split
  · rename_i hkind
    exact absurd hkind h.1
  · rename_i hkind
    exact absurd hkind h.2
  · rfl

theorem LeveledAt.plain {token : Token} (h : LeveledAt tokens depth)
    (hkind : ¬ token.kind.BoundsHole) (hdepth : token.depth = depth) :
    LeveledAt (token :: tokens) depth where
  leveled := .plain (fun hend => hkind (Or.inr hend)) (h.count.trans hdepth.symm) h.leveled
  count := (openCount_of_not_boundsHole hkind).trans h.count

theorem LeveledAt.opens {token : Token} (h : LeveledAt tokens depth)
    (hkind : token.kind = .interpolationStart) (hdepth : token.depth = depth) :
    LeveledAt (token :: tokens) (depth + 1) where
  leveled := .plain (by simp [hkind]) (h.count.trans hdepth.symm) h.leveled
  count := by simp only [openCount, hkind, h.count]

theorem LeveledAt.closes {token : Token} (h : LeveledAt tokens (depth + 1))
    (hkind : token.kind = .interpolationEnd) (hdepth : token.depth = depth) :
    LeveledAt (token :: tokens) depth where
  leveled := .close hkind (by rw [h.count, hdepth]) h.leveled
  count := by simp only [openCount, hkind, h.count, Nat.add_sub_cancel]

theorem leveledAt_of_trivia (h : ∀ token ∈ tokens, token.isTrivia = true ∧ token.depth = 0) :
    LeveledAt tokens 0 := by
  induction tokens with
  | nil => exact ⟨.nil, rfl⟩
  | cons token tokens ih =>
    obtain ⟨htrivia, hdepth⟩ := h token List.mem_cons_self
    refine (ih fun other hmem => h other (List.mem_cons_of_mem _ hmem)).plain ?_ hdepth
    rintro (hkind | hkind) <;> simp [isTrivia, hkind] at htrivia

theorem Leveled.openCount_add_countP (h : Leveled tokens) :
    openCount tokens + tokens.countP (fun token => token.kind == .interpolationEnd) =
      tokens.countP fun token => token.kind == .interpolationStart := by
  induction h with
  | nil => rfl
  | @plain token earlier hkind _ _ ih =>
    rw [List.countP_cons_of_neg (by simpa using hkind)]
    by_cases hstart : token.kind = .interpolationStart
    · rw [List.countP_cons_of_pos (by simpa using hstart)]
      simp only [openCount, hstart]
      omega
    · rw [List.countP_cons_of_neg (by simpa using hstart),
        openCount_of_not_boundsHole fun hbounds => hbounds.elim hstart hkind]
      exact ih
  | @close token earlier hkind hdepth _ ih =>
    rw [List.countP_cons_of_pos (by simpa using hkind),
      List.countP_cons_of_neg (by simp [hkind])]
    simp only [openCount, hkind]
    omega

/-- Behind the sign that opens the expression at some level, all tokens stand inside. -/
theorem Leveled.exists_opening (h : Leveled tokens) {level : Nat}
    (hlevel : level < openCount tokens) :
    ∃ inside opening earlier, tokens = inside ++ opening :: earlier ∧
      opening.kind = .interpolationStart ∧ opening.depth = level ∧
      ∀ token ∈ inside, level < token.depth := by
  have step : ∀ {token : Token} {earlier : List Token}, level < token.depth →
      (∃ inside opening before, earlier = inside ++ opening :: before ∧
        opening.kind = .interpolationStart ∧ opening.depth = level ∧
        ∀ token ∈ inside, level < token.depth) →
      ∃ inside opening before, token :: earlier = inside ++ opening :: before ∧
        opening.kind = .interpolationStart ∧ opening.depth = level ∧
        ∀ token ∈ inside, level < token.depth := by
    rintro token _ hdepth ⟨inside, opening, before, rfl, hopening, hlevel, hinside⟩
    exact ⟨token :: inside, opening, before, rfl, hopening, hlevel,
      List.forall_mem_cons.mpr ⟨hdepth, hinside⟩⟩
  induction h with
  | nil => simp [openCount] at hlevel
  | @plain token earlier hkind hdepth _ ih =>
    by_cases hopens : token.kind = .interpolationStart ∧ token.depth = level
    · exact ⟨[], token, earlier, rfl, hopens.1, hopens.2, by simp⟩
    · have hlt : level < token.depth := by
        by_cases hstart : token.kind = .interpolationStart
        · simp only [openCount, hstart] at hlevel
          simp only [hstart, true_and] at hopens
          omega
        · have hcount : openCount (token :: earlier) = openCount earlier :=
            openCount_of_not_boundsHole fun hbounds => hbounds.elim hstart hkind
          omega
      exact step hlt (ih (hdepth ▸ hlt))
  | @close token earlier hkind hdepth _ ih =>
    have hcount : openCount (token :: earlier) = openCount earlier - 1 := by
      simp only [openCount, hkind]
    exact step (by omega) (ih (by omega))

end Levels

namespace Lexer

section Moving

variable {lexer next : Lexer} {c : Char} {rest : List Char}

def LeveledHere (lexer : Lexer) : Prop := LeveledAt lexer.tokens lexer.depth

theorem countP_isHole_literal (quoting : Quoting) (opened : Nat) (outer : List Frame) :
    (Frame.literal quoting opened :: outer).countP Frame.isHole = outer.countP Frame.isHole :=
  List.countP_cons_of_neg (by simp [Frame.isHole])

theorem countP_isHole_hole (opened braces : Nat) (outer : List Frame) :
    (Frame.hole opened braces :: outer).countP Frame.isHole = outer.countP Frame.isHole + 1 :=
  List.countP_cons_of_pos rfl

@[simp]
theorem countP_isHole_countBraces (c : Char) (frames : List Frame) :
    (countBraces c frames).countP Frame.isHole = frames.countP Frame.isHole := by
  unfold countBraces
  split
  · rw [countP_isHole_hole, countP_isHole_hole]
  · rfl

@[simp]
theorem depth_flush : lexer.flush.depth = lexer.depth := by rw [depth, frames_flush, depth]

theorem LeveledHere.flush (h : lexer.LeveledHere) : lexer.flush.LeveledHere := by
  rw [LeveledHere, depth_flush]
  unfold Lexer.flush
  split
  · exact h
  · exact h.plain (by simp [Kind.BoundsHole]) rfl

theorem not_boundsHole_wordKind (word : List Char) : ¬ (wordKind word).BoundsHole :=
  holeFree_word word 0

theorem leveledAt_namePath {level : Nat} (h : LeveledAt lexer.tokens level) :
    LeveledAt (lexer.namePath level c rest).tokens level := by
  fun_induction Lexer.namePath lexer level c rest with
  | case1 lexer c rest word named next after hafter hstart ih =>
    exact ih ((h.plain (not_boundsHole_wordKind word) rfl).plain (by simp [Kind.BoundsHole]) rfl)
  | case2 lexer c rest word named next after hafter hstart =>
    exact h.plain (not_boundsHole_wordKind word) rfl
  | case3 lexer c rest word named hne => exact h.plain (not_boundsHole_wordKind word) rfl

theorem leveledHere_of {level : Nat} (h : LeveledAt lexer.tokens level)
    (hframes : lexer.frames.countP Frame.isHole = level) : lexer.LeveledHere := by
  rwa [LeveledHere, depth, hframes]

/-- Every move leaves the tokens at their depths. -/
theorem LeveledHere.move (h : lexer.LeveledHere) (hmove : lexer.Moves c rest next) :
    next.LeveledHere := by
  cases hmove with
  | @token kind more _ _ hhead =>
    have hfree := holeFree_head (operandExpected lexer.tokens) c rest
    rw [hhead] at hfree
    exact leveledHere_of (h.plain hfree rfl) (countP_isHole_countBraces c lexer.frames)
  | openLiteral _ _ _ => exact leveledHere_of h (countP_isHole_literal _ _ _)
  | @closeHole opened outer hframes _ =>
    rw [LeveledHere, depth, hframes, countP_isHole_hole] at h
    exact leveledHere_of (h.closes rfl rfl) rfl
  | @closeLiteral quoting opened outer hframes _ =>
    have hdepth : lexer.depth = outer.countP Frame.isHole := by
      rw [depth, hframes, countP_isHole_literal]
    exact leveledHere_of (h.plain (by simp [Kind.BoundsHole]) rfl) hdepth.symm
  | plain _ _ _ => exact h
  | escaped _ _ _ _ => exact h
  | openHole _ _ _ _ =>
    exact leveledHere_of (h.flush.opens rfl rfl) (countP_isHole_hole _ _ _)
  | @shortName _ _ _ d after _ _ _ _ _ =>
    have hstart : LeveledAt (lexer.flush.emit .interpolationStart lexer.flush.depth ['$']).tokens
        (lexer.flush.depth + 1) := h.flush.opens rfl rfl
    refine leveledHere_of ((leveledAt_namePath hstart).closes rfl rfl) ?_
    exact congrArg (List.countP Frame.isHole) (frames_namePath _ _ d after)

theorem Reads.leveled {text : List Char} (h : Reads text lexer) : lexer.LeveledHere := by
  induction h with
  | start =>
    have hdepth : (Lexer.afterMark text).afterShebang.depth = 0 := by rw [depth, frames_start]; rfl
    rw [LeveledHere, hdepth]
    exact leveledAt_of_trivia (trivia_start text)
  | step _ _ hstep ih => exact ih.move (moves_of_step hstep)

end Moving

end Lexer

/-- The token at the first position opens an interpolated expression that is still open at the
second: all tokens behind it up to there stand deeper. -/
def Encloses (tokens : List Token) (opening position : Nat) : Prop :=
  opening < position ∧ ∃ first, tokens[opening]? = some first ∧
    first.kind = .interpolationStart ∧ ∀ inside token, opening < inside → inside ≤ position →
      tokens[inside]? = some token → first.depth < token.depth

theorem Leveled.of_append {later earlier : List Token} (h : Leveled (later ++ earlier)) :
    Leveled earlier := by
  induction later with
  | nil => exact h
  | cons token later ih =>
    cases h with
    | plain _ _ hearlier => exact ih hearlier
    | close _ _ hearlier => exact ih hearlier

/-- A sign behind which all tokens up to a position stand deeper, told by the tokens before it. -/
theorem encloses_of_take {tokens before inside : List Token} {first last : Token} {position : Nat}
    (hlast : tokens[position]? = some last)
    (htake : tokens.take position = before ++ first :: inside)
    (hkind : first.kind = .interpolationStart)
    (hinside : ∀ token ∈ inside, first.depth < token.depth) (hdeeper : first.depth < last.depth) :
    Encloses tokens before.length position := by
  obtain ⟨hposition, -⟩ := List.getElem?_eq_some_iff.mp hlast
  have hlength := congrArg List.length htake
  simp only [List.length_take, List.length_append, List.length_cons] at hlength
  have hget : ∀ index, index < position →
      tokens[index]? = (before ++ first :: inside)[index]? := by
    intro index hindex
    rw [← htake, List.getElem?_take_of_lt hindex]
  refine ⟨by omega, first, ?_, hkind, fun index token hlt hle htoken => ?_⟩
  · rw [hget _ (by omega), List.getElem?_append_right (Nat.le_refl _), Nat.sub_self,
      List.getElem?_cons_zero]
  · rcases Nat.lt_or_eq_of_le hle with hbefore | rfl
    · rw [hget _ hbefore, List.getElem?_append_right (Nat.le_of_lt hlt)] at htoken
      obtain ⟨offset, rfl⟩ := Nat.exists_eq_add_of_lt hlt
      rw [Nat.add_assoc, Nat.add_sub_cancel_left, List.getElem?_cons_succ] at htoken
      exact hinside token (List.mem_of_getElem? htoken)
    · exact Option.some.inj (hlast.symm.trans htoken) ▸ hdeeper

/-- A token stands at the depth that the ones before it leave. -/
theorem leveled_of_lex {text : List Char} {tokens : List Token} (h : lex text = .ok tokens)
    {position : Nat} {token : Token} (htoken : tokens[position]? = some token) :
    Leveled (token :: (tokens.take position).reverse) := by
  obtain ⟨last, later, hreads, hlast⟩ := Lexer.exists_reads_of_getElem? h htoken
  exact (hlast ▸ hreads.leveled.leveled).of_append

/-- A token at a positive depth, other than the end of an expression, stands in one. -/
theorem exists_encloses {text : List Char} {tokens : List Token} (h : lex text = .ok tokens)
    {position : Nat} {token : Token} (htoken : tokens[position]? = some token)
    (hkind : token.kind ≠ .interpolationEnd) (hdepth : 0 < token.depth) :
    ∃ opening, Encloses tokens opening position := by
  cases leveled_of_lex h htoken with
  | close hend _ _ => exact absurd hend hkind
  | plain _ hcount hearlier =>
    -- The sign of the outermost expression is the one with all of them behind it.
    obtain ⟨inside, first, before, hsplit, hfirst, hlevel, hinside⟩ :=
      hearlier.exists_opening (hcount ▸ hdepth)
    have htake : tokens.take position = before.reverse ++ first :: inside.reverse := by
      rw [← List.reverse_reverse (tokens.take position), hsplit]
      simp
    refine ⟨_, encloses_of_take htoken htake hfirst (fun other hmem => ?_) (hlevel ▸ hdepth)⟩
    exact hlevel ▸ hinside other (List.mem_reverse.mp hmem)

end UnusedImports.Token
