import UnusedImports.Outline.Symbol

/-!
Symbols and the tokens they come from. A symbol that is a name or a word keeps its text, and so
does the symbol of most operators; what is lost is only which other operator, number or literal
it was.
-/
namespace UnusedImports

namespace Symbol

def sign? : Symbol → Option String
  | .opening bracket => some bracket.opening
  | .closing bracket => some bracket.closing
  | .atSign => some "@"
  | .dot => some "."
  | .star => some "*"
  | .minus => some "-"
  | .ellipsis => some "..."
  | .semicolon => some ";"
  | _ => none

inductive Signs (text : String) : Symbol → Prop
  | sign {symbol : Symbol} (hsign : symbol.sign? = some text) : Signs text symbol
  | access (hdot : text ≠ ".") (haccess : Lexicon.isMemberAccess text = true) : Signs text .access
  | other (haccess : Lexicon.isMemberAccess text = false) : Signs text .other

theorem signs_ofOperator (text : String) : Signs text (ofOperator text) := by
  have hfixed : ∀ (sign : String) (symbol next : Symbol), symbol.sign? = some sign →
      (text ≠ sign → Signs text next) →
        Signs text (if text = sign then symbol else next) := by
    intro sign symbol next hsign hnext
    split
    · rename_i h
      exact Signs.sign (h ▸ hsign)
    · rename_i h
      exact hnext h
  unfold ofOperator
  refine hfixed _ _ _ rfl fun _ => hfixed _ _ _ rfl fun _ => hfixed _ _ _ rfl fun _ =>
    hfixed _ _ _ rfl fun _ => hfixed _ _ _ rfl fun _ => hfixed _ _ _ rfl fun _ =>
    hfixed _ _ _ rfl fun _ => hfixed _ _ _ rfl fun hdot => ?_
  by_cases haccess : Lexicon.isMemberAccess text = true
  · rw [if_pos haccess]
    exact Signs.access hdot haccess
  · rw [if_neg haccess]
    refine hfixed _ _ _ rfl fun _ => hfixed _ _ _ rfl fun _ => hfixed _ _ _ rfl fun _ =>
      hfixed _ _ _ rfl fun _ => Signs.other (by simpa using haccess)

theorem Signs.isTrivia {text : String} {symbol : Symbol} (h : Signs text symbol) :
    symbol.isTrivia = false := by
  cases h with
  | sign hsign => cases symbol <;> simp_all [sign?, Symbol.isTrivia]
  | access => rfl
  | other => rfl

theorem Signs.word {text : String} {symbol : Symbol} (h : Signs text symbol) :
    symbol.word? = none := by
  cases h with
  | sign hsign => cases symbol <;> simp_all [sign?, word?]
  | access => rfl
  | other => rfl

theorem Signs.isMemberAccess {text : String} {symbol : Symbol} (h : Signs text symbol) :
    symbol.isMemberAccess = Lexicon.isMemberAccess text := by
  cases h with
  | sign hsign =>
    cases symbol with
    | opening bracket => cases bracket <;> obtain rfl := Option.some.inj hsign <;> rfl
    | closing bracket => cases bracket <;> obtain rfl := Option.some.inj hsign <;> rfl
    | identifier | keyword | access | other | newline | gap => simp [sign?] at hsign
    | _ => obtain rfl := Option.some.inj hsign; rfl
  | access _ haccess => exact haccess.symm
  | other haccess => exact haccess.symm

/-- An operator whose symbol tells its text has that text. -/
theorem Signs.eq_of_sign {text sign : String} {symbol : Symbol} (h : Signs text symbol)
    (hsign : symbol.sign? = some sign) : text = sign := by
  cases h with
  | sign h => exact Option.some.inj (h.symm.trans hsign)
  | access => simp [sign?] at hsign
  | other => simp [sign?] at hsign
end Symbol

namespace Token

def isSign (token : Token) (text : String) : Bool := token.kind == .operator && token.text == text

def isMemberAccess (token : Token) : Bool :=
  token.kind == .operator && Lexicon.isMemberAccess token.text

def isWord (token : Token) (word : String) : Bool := token.kind == .keyword && token.text == word

@[simp]
theorem isTrivia_symbol (token : Token) : token.symbol.isTrivia = token.isTrivia := by
  unfold symbol isTrivia
  cases token.kind with
  | operator => exact (Symbol.signs_ofOperator token.text).isTrivia
  | _ => rfl

@[simp]
theorem isMemberAccess_symbol (token : Token) :
    token.symbol.isMemberAccess = token.isMemberAccess := by
  unfold symbol isMemberAccess
  cases token.kind with
  | operator => simpa using (Symbol.signs_ofOperator token.text).isMemberAccess
  | _ => rfl

/-- A token whose symbol tells the text of an operator is that operator. -/
theorem isSign_of_symbol {token : Token} {text : String}
    (h : token.symbol.sign? = some text) : token.isSign text = true := by
  unfold symbol at h
  unfold isSign
  cases hkind : token.kind with
  | operator =>
    rw [hkind] at h
    simpa using (Symbol.signs_ofOperator token.text).eq_of_sign h
  | _ => simp [hkind, Symbol.sign?] at h

theorem kind_of_symbol_keyword {token : Token} {word : String}
    (h : token.symbol = .keyword word) : token.kind = .keyword ∧ token.text = word := by
  unfold symbol at h
  cases hkind : token.kind with
  | operator =>
    simp only [hkind] at h
    have hword := (Symbol.signs_ofOperator token.text).word
    simp [h, Symbol.word?] at hword
  | keyword => simp_all
  | _ => simp [hkind] at h

theorem kind_of_symbol_identifier {token : Token} {name : String}
    (h : token.symbol = .identifier name) : token.kind = .identifier := by
  unfold symbol at h
  cases hkind : token.kind with
  | operator =>
    simp only [hkind] at h
    have hword := (Symbol.signs_ofOperator token.text).word
    simp [h, Symbol.word?] at hword
  | identifier => rfl
  | _ => simp [hkind] at h

theorem symbol_of_isWord {token : Token} {word : String} (h : token.isWord word = true) :
    token.symbol = .keyword word := by
  simp only [isWord, Bool.and_eq_true, beq_iff_eq] at h
  rw [symbol, h.1, h.2]

theorem symbol_bne_gap (token : Token) :
    (token.symbol != .gap) = (token.kind != .blank && token.kind != .comment) := by
  rw [Bool.eq_iff_iff, Bool.and_eq_true, bne_iff_ne, bne_iff_ne, bne_iff_ne]
  unfold symbol
  cases token.kind with
  | operator =>
    have htrivia := (Symbol.signs_ofOperator token.text).isTrivia
    have hgap : Symbol.ofOperator token.text ≠ .gap := by
      intro hgap
      simp [hgap, Symbol.isTrivia] at htrivia
    simp [hgap]
  | _ => simp

end Token

end UnusedImports
