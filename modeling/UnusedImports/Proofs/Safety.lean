import UnusedImports.Proofs.Reference
import UnusedImports.Proofs.Settlement
import UnusedImports.Proofs.Source

/-!
Removal is safe. A name counts for a source when it is an identifier that stays there and is
not part of the package clause or of an import itself. An import is only removed when no name
that counts can be the one it binds: each of them belongs to a receiver, or is a call where
what the import binds is a type.
-/
namespace UnusedImports

namespace Source

def tokenBefore? (source : Source) (position : Nat) : Option Token :=
  ((source.tokens.take position).filter fun token => !token.isTrivia).getLast?

/-- The next token after a position that stands on its line and is not trivia. -/
def tokenAfter? (source : Source) (position : Nat) : Option Token :=
  ((source.tokens.drop (position + 1)).find? fun token =>
    token.kind != .blank && token.kind != .comment).filter fun token => token.kind != .newline

def hasReceiver (source : Source) (position : Nat) : Bool :=
  (source.tokenBefore? position).any Token.isMemberAccess

/-- Whether a token at a position is a call: outside interpolation, before a parenthesis on its
line, and neither an annotation nor an object that is created. -/
def isCall (source : Source) (position : Nat) (token : Token) : Bool :=
  token.depth == 0 && (source.tokenAfter? position).any (Token.isSign · "(") &&
    !(source.tokenBefore? position).any fun before => before.isSign "@" || before.isWord "new"

def contextAt (source : Source) (position : Nat) (token : Token) : Context :=
  Reference.contextOf token.depth
    (Outline.lastSignificant none ((source.tokens.take position).map Token.symbol))
    ((source.tokens.drop (position + 1)).map fun token => (token.symbol, token.depth))

theorem lastSignificant_eq (before : Option Symbol) (tokens : List Token) :
    Outline.lastSignificant before (tokens.map Token.symbol) =
      ((tokens.filter fun token => !token.isTrivia).getLast?.map Token.symbol).or before := by
  induction tokens generalizing before with
  | nil => rfl
  | cons token tokens ih =>
    have hstep : Outline.lastSignificant before ((token :: tokens).map Token.symbol) =
        Outline.lastSignificant (if token.isTrivia then before else some token.symbol)
          (tokens.map Token.symbol) := by
      simp [Outline.lastSignificant]
    rw [hstep, ih]
    by_cases htrivia : token.isTrivia = true
    · simp [htrivia]
    · rw [List.filter_cons_of_pos (by simpa using htrivia), List.getLast?_cons]
      cases (tokens.filter fun token => !token.isTrivia).getLast? with
      | none => simp [htrivia]
      | some last => simp

/-- The symbol before a position is that of the token before it. -/
theorem lastSignificant_take (source : Source) (position : Nat) :
    Outline.lastSignificant none ((source.tokens.take position).map Token.symbol) =
      (source.tokenBefore? position).map Token.symbol := by
  rw [lastSignificant_eq, Option.or_none]
  rfl

theorem nextOnLine?_of_solid {site : Reference.Site} (h : site.1.isTrivia = false)
    (rest : List Reference.Site) :
    Reference.nextOnLine? (site :: rest) = some (site.1, rest) := by
  rw [Reference.nextOnLine?]
  cases hsymbol : site.1 with
  | newline => simp [hsymbol, Symbol.isTrivia] at h
  | gap => simp [hsymbol, Symbol.isTrivia] at h
  | _ => rfl

theorem nextOnLine?_eq (tokens : List Token) :
    (Reference.nextOnLine? (tokens.map fun token => (token.symbol, token.depth))).map Prod.fst =
      ((tokens.find? fun token => token.kind != .blank && token.kind != .comment).filter
        fun token => token.kind != .newline).map Token.symbol := by
  induction tokens with
  | nil => rfl
  | cons token tokens ih =>
    by_cases hsolid : token.isTrivia = false
    · rw [List.map_cons, nextOnLine?_of_solid (by simpa using hsolid)]
      unfold Token.isTrivia at hsolid
      cases hkind : token.kind <;> simp_all
    · rw [List.map_cons, Reference.nextOnLine?]
      unfold Token.isTrivia at hsolid
      cases hkind : token.kind <;> simp_all [Token.symbol]

/-- The next symbol on the line is that of the next token on it. -/
theorem nextOnLine?_drop (source : Source) (position : Nat) :
    (Reference.nextOnLine? ((source.tokens.drop (position + 1)).map
      fun token => (token.symbol, token.depth))).map Prod.fst =
        (source.tokenAfter? position).map Token.symbol :=
  nextOnLine?_eq _

/-- A bare name makes a reference with its text and its context. -/
theorem getElem?_references (source : Source) {position : Nat} {token : Token}
    (htoken : source.tokens[position]? = some token) (hkind : token.kind = .identifier)
    (hbare : source.hasReceiver position = false) :
    source.references[position]? = some (some
      ⟨token.text, source.contextAt position token, source.locate token.extent⟩) := by
  have hsymbol : token.symbol = .identifier token.text := by simp [Token.symbol, hkind]
  have hbefore : (Outline.lastSignificant none
      ((source.tokens.take position).map Token.symbol)).any Symbol.isMemberAccess = false := by
    rw [source.lastSignificant_take]
    unfold hasReceiver at hbare
    simpa [Option.any_map, Function.comp_def] using hbare
  unfold references Reference.ofTokens Reference.uses
  rw [List.getElem?_zipWith, htoken, Reference.getElem?_usesFrom, List.getElem?_map, htoken]
  rw [← List.map_take, ← List.map_drop, List.map_map]
  simp only [Option.map_some, Reference.useAt, hsymbol]
  rw [if_neg (by simpa [Function.comp_def] using hbefore)]
  rfl

theorem isCall_of_contextAt (source : Source) {position : Nat} {token : Token}
    (h : source.contextAt position token = .staticMember) :
    source.isCall position token = true := by
  have hafter := source.nextOnLine?_drop position
  unfold contextAt Reference.contextOf at h
  rw [source.lastSignificant_take] at h
  split at h
  · simp at h
  rename_i hdepth
  split at h
  · simp at h
  rename_i hsign
  split at h
  · split at h <;> simp at h
  rename_i next rest hnext
  rw [hnext, Option.map_some] at hafter
  split at h
  · rename_i hcall
    obtain ⟨rfl, hnew⟩ := hcall
    obtain ⟨after, hsome, hround⟩ := Option.map_eq_some_iff.mp hafter.symm
    have hparenthesis : after.isSign "(" = true := Token.isSign_of_symbol (by rw [hround]; rfl)
    have hbefore : ((source.tokenBefore? position).any fun before =>
        before.isSign "@" || before.isWord "new") = false := by
      cases hlast : source.tokenBefore? position with
      | none => rfl
      | some before =>
        rw [hlast, Option.map_some] at hsign hnew
        have hnotsign : before.isSign "@" = false := by
          by_contra hat
          apply hsign
          simp only [Token.isSign, Bool.not_eq_false, Bool.and_eq_true, beq_iff_eq] at hat
          simp [Token.symbol, hat, Symbol.ofOperator]
        have hnotnew : before.isWord "new" = false := by
          by_contra hword
          apply hnew
          simp only [Token.isWord, Bool.not_eq_false, Bool.and_eq_true, beq_iff_eq] at hword
          simp [Token.symbol, hword]
        simp [hnotsign, hnotnew]
    unfold isCall
    rw [hsome, hbefore]
    simp only [Option.any_some, hparenthesis]
    simpa using hdepth
  · repeat' split at h
    all_goals simp at h

end Source

namespace Analysis

/-- A token at a position is a name that counts: an identifier outside the package clause,
outside every import from its keyword on, and outside the annotations of every import that is
removed. -/
structure Counts (analysis : Analysis) (position : Nat) (token : Token) : Prop where
  token_eq : analysis.source.tokens[position]? = some token
  identifier : token.kind = .identifier
  outside_package : analysis.source.outline.package.any (·.contains position) = false
  outside_clauses : ∀ statement ∈ analysis.source.outline.imports,
    Extent.contains ⟨statement.keyword, statement.tokens.stop⟩ position = false
  outside_annotations : ∀ statement ∈ analysis.source.outline.imports,
    ImportDeclaration.ofStatement analysis.source.locateTokens statement ∈ analysis.unused →
      statement.annotations.any (·.contains position) = false

instance (analysis : Analysis) (position : Nat) (token : Token) :
    Decidable (analysis.Counts position token) :=
  decidable_of_iff
    (analysis.source.tokens[position]? = some token ∧ token.kind = .identifier ∧
      analysis.source.outline.package.any (·.contains position) = false ∧
      (∀ statement ∈ analysis.source.outline.imports,
        Extent.contains ⟨statement.keyword, statement.tokens.stop⟩ position = false) ∧
      ∀ statement ∈ analysis.source.outline.imports,
        ImportDeclaration.ofStatement analysis.source.locateTokens statement ∈ analysis.unused →
          statement.annotations.any (·.contains position) = false)
    ⟨fun ⟨htoken, hkind, hpackage, hclauses, hannotations⟩ =>
      ⟨htoken, hkind, hpackage, hclauses, hannotations⟩,
     fun h => ⟨h.token_eq, h.identifier, h.outside_package, h.outside_clauses,
      h.outside_annotations⟩⟩

section Judged

variable {policy : Policy} {source : Source}

theorem decisions_ofSource : (ofSource policy source).settlement.decisions =
    Decision.judge policy source.declarations (ofSource policy source).settlement.references :=
  Settlement.decisions_settle _ _ _ _ source.length_annotationReferences

/-- What is removed is neither protected nor used by a reference in force. -/
theorem mem_unused_ofSource {declaration : ImportDeclaration} :
    declaration ∈ (ofSource policy source).unused ↔ declaration ∈ source.declarations ∧
      policy.protects declaration = false ∧
      ∀ reference ∈ (ofSource policy source).settlement.references,
        Decision.isUsedBy (Decision.staticNames source.declarations) declaration reference =
          false := by
  have hverdict : ∀ other, (Decision.verdictOn policy
      (ofSource policy source).settlement.references (Decision.staticNames source.declarations)
      other).isRemove = true ↔ policy.protects other = false ∧
        ∀ reference ∈ (ofSource policy source).settlement.references,
          Decision.isUsedBy (Decision.staticNames source.declarations) other reference =
            false := by
    intro other
    rw [← Bool.not_eq_false, Decision.isRemove_verdictOn]
    simp
  unfold unused Decision.unused
  rw [decisions_ofSource, Decision.judge, List.filter_map, List.map_map, List.mem_map]
  simp only [List.mem_filter, Function.comp_apply]
  constructor
  · intro hcase
    obtain ⟨other, ⟨hmem, hremove⟩, rfl⟩ := hcase
    exact ⟨hmem, (hverdict other).mp hremove⟩
  · intro hcase
    obtain ⟨hmem, hkept⟩ := hcase
    exact ⟨declaration, ⟨hmem, (hverdict declaration).mpr hkept⟩, rfl⟩

/-- The annotations of an import that is not removed count. -/
theorem keeps_of_not_mem_unused {position : Nat} {declaration : ImportDeclaration}
    (hdeclaration : source.declarations[position]? = some declaration)
    (h : declaration ∉ (ofSource policy source).unused) :
    Settlement.keeps (ofSource policy source).settlement.decisions position = true := by
  rw [decisions_ofSource, Settlement.keeps_judge]
  refine ⟨declaration, hdeclaration, ?_⟩
  by_contra hkept
  refine h (mem_unused_ofSource.mpr ⟨List.mem_of_getElem? hdeclaration, ?_⟩)
  simpa [not_or] using hkept

/-- A bare name that counts is a reference in force. -/
theorem mem_references_of_counts {text : List Char} (hread : Source.read text = .ok source)
    {position : Nat} {token : Token} (hcounts : (ofSource policy source).Counts position token)
    (hbare : source.hasReceiver position = false) :
    ⟨token.text, source.contextAt position token, source.locate token.extent⟩ ∈
      (ofSource policy source).settlement.references := by
  have hreference := source.getElem?_references hcounts.token_eq hcounts.identifier hbare
  have hname : (source.tokens.map Token.symbol)[position]? = some (.identifier token.text) := by
    have htoken : source.tokens[position]? = some token := hcounts.token_eq
    rw [List.getElem?_map, htoken]
    simp [Token.symbol, hcounts.identifier]
  refine (Settlement.mem_references_settle policy source.declarations source.bodyReferences
    source.annotationReferences source.length_annotationReferences).mpr ?_
  rcases Outline.exists_part (Source.ofSymbols_of_read hread) hname with
    ⟨tokens, hpackage, hcontains⟩ | ⟨statement, hmem, hcontains, hat⟩ | ⟨part, hpart, hcontains⟩
  · have hpackage : source.outline.package = some tokens := hpackage
    have houtside : source.outline.package.any (·.contains position) = false :=
      hcounts.outside_package
    simp [hpackage, hcontains] at houtside
  · right
    -- The name is not in the clause, so it stands in the annotations, and those are not removed.
    obtain ⟨hstart, hstop⟩ := Extent.contains_iff.mp hcontains
    have hbefore : position < statement.keyword := by
      have hclause := hcounts.outside_clauses statement hmem
      by_contra hafter
      have hinside : Extent.contains ⟨statement.keyword, statement.tokens.stop⟩ position = true :=
        Extent.contains_iff.mpr ⟨Nat.le_of_not_lt hafter, hstop⟩
      simp [hinside] at hclause
    have hannotations : statement.annotations =
        some ⟨statement.tokens.start, statement.keyword⟩ := by
      rw [hat.annotations_eq, if_pos (by omega)]
    have hinside : Extent.contains ⟨statement.tokens.start, statement.keyword⟩ position = true :=
      Extent.contains_iff.mpr ⟨hstart, hbefore⟩
    obtain ⟨index, hindex⟩ := List.mem_iff_getElem?.mp hmem
    refine ⟨index, ?_, ?_⟩
    · apply keeps_of_not_mem_unused (by rw [Source.declarations, List.getElem?_map, hindex]; rfl)
      intro hunused
      have houtside := hcounts.outside_annotations statement hmem hunused
      simp [hannotations, hinside] at houtside
    · have hindex : source.outline.imports[index]? = some statement := hindex
      rw [source.ownAt_annotationReferences, hindex, Option.bind_some, hannotations]
      exact Reference.mem_within hinside hreference
  · left
    exact List.mem_flatMap.mpr ⟨part, hpart, Reference.mem_within hcontains hreference⟩

theorem boundName_of_isWildcard {text : List Char} (hread : Source.read text = .ok source)
    {declaration : ImportDeclaration} (hmem : declaration ∈ source.declarations)
    (hkind : declaration.kind = .staticWildcard) : declaration.boundName = none := by
  obtain ⟨statement, hstatement, rfl⟩ := List.mem_map.mp hmem
  obtain ⟨pieces, hcuts⟩ := Outline.exists_cuts (Source.ofSymbols_of_read hread)
  rw [hcuts.assembled] at hstatement
  have hat : Outline.ImportAt _ statement :=
    hcuts.valid _ (Outline.mem_imports_assemble.mp hstatement)
  have hstar : statement.clause.wildcard = true := by
    simp only [ImportDeclaration.ofStatement] at hkind
    cases hmarks : statement.clause.wildcard with
    | true => rfl
    | false => cases h : statement.clause.isStatic <;> simp [hmarks, h, ImportKind.ofMarks] at hkind
  simp [ImportDeclaration.boundName, ImportDeclaration.ofStatement, hstar, hat.unaliased hstar]

end Judged

/-- What is removed is protected by nothing, and no name that counts can be the one it binds. A
name with the text that an import binds belongs to a receiver, unless it is a call and it is
a plain import without an alias. After a static wildcard is removed, every bare name in a
call, a value or an interpolation is bound by a static import of its own. -/
theorem safe_of_mem_unused {policy : Policy} {text : String} {analysis : Analysis}
    (hanalyze : analyze policy text = .ok analysis) {declaration : ImportDeclaration}
    (hunused : declaration ∈ analysis.unused) :
    policy.allows declaration.path = false ∧
      declaration.kind ≠ .wildcard ∧
      ¬ (declaration.annotated = true ∧ policy.keepAnnotated = true) ∧
      ¬ (declaration.kind = .staticWildcard ∧ policy.keepStaticWildcards = true) ∧
      (∀ name, declaration.boundName = some name →
        ∀ position token, analysis.Counts position token → token.text = name →
          analysis.source.hasReceiver position = true ∨
            declaration.kind = .plain ∧ declaration.aliasName = none ∧
              analysis.source.isCall position token = true) ∧
      (declaration.kind = .staticWildcard →
        ∀ position token, analysis.Counts position token →
          analysis.source.hasReceiver position = false →
          analysis.source.contextAt position token ∈
            [Context.staticMember, Context.value, Context.interpolation] →
          ∃ other ∈ analysis.declarations,
            other.kind = .static ∧ other.boundName = some token.text) := by
  unfold analyze at hanalyze
  obtain ⟨source, hread, rfl⟩ := Outline.exists_of_map_eq_ok hanalyze
  obtain ⟨hmem, hprotects, hunreferenced⟩ := mem_unused_ofSource.mp hunused
  simp only [Policy.protects, Bool.or_eq_false_iff, Bool.and_eq_false_iff,
    beq_eq_false_iff_ne] at hprotects
  obtain ⟨⟨⟨hallows, hannotated⟩, hwildcard⟩, hstatic⟩ := hprotects
  refine ⟨hallows, hwildcard, ?_, ?_, ?_, ?_⟩
  · intro hcase
    obtain ⟨htrue, hkeep⟩ := hcase
    simp [htrue, hkeep] at hannotated
  · intro hcase
    obtain ⟨hkind, hkeep⟩ := hcase
    simp [hkind, hkeep] at hstatic
  · rintro name hbound position token hcounts rfl
    by_cases hreceiver : source.hasReceiver position = true
    · exact Or.inl hreceiver
    right
    have hfree := hunreferenced _
      (mem_references_of_counts hread hcounts (by simpa using hreceiver))
    unfold Decision.isUsedBy at hfree
    cases hkind : declaration.kind with
    | wildcard => exact absurd hkind hwildcard
    | staticWildcard => simp [boundName_of_isWildcard hread hmem hkind] at hbound
    | static => simp [hkind, hbound] at hfree
    | plain =>
      cases halias : declaration.aliasName with
      | some other => simp [hkind, halias, hbound] at hfree
      | none =>
        have hsimple : declaration.simpleName = some token.text := by
          simpa [ImportDeclaration.boundName, halias] using hbound
        refine ⟨rfl, rfl, source.isCall_of_contextAt ?_⟩
        simpa [hkind, halias, hsimple] using hfree
  · intro hkind position token hcounts hbare hcontext
    have hfree := hunreferenced _ (mem_references_of_counts hread hcounts hbare)
    have hbound : token.text ∈ Decision.staticNames source.declarations := by
      have hmember : (source.contextAt position token = .staticMember ∨
          source.contextAt position token = .value) ∨
          source.contextAt position token = .interpolation := by
        change source.contextAt position token ∈ _ at hcontext
        simpa [or_assoc] using hcontext
      simp only [Decision.isUsedBy, Decision.mayBeMember, hkind, Bool.and_eq_false_imp,
        Bool.or_eq_true, beq_iff_eq, Bool.not_eq_false', List.contains_eq_mem,
        decide_eq_true_eq] at hfree
      exact hfree hmember
    obtain ⟨other, hother, hname⟩ := List.mem_filterMap.mp hbound
    refine ⟨other, hother, ?_⟩
    split at hname
    · rename_i hexplicit
      exact ⟨hexplicit, hname⟩
    · simp at hname

theorem safe_of_mem_unused_called :
    ∃ analysis declaration position token,
      analyze ⟨[], true, true⟩ "import a.B\nB()\n" = .ok analysis ∧
      declaration ∈ analysis.unused ∧ declaration.boundName = some "B" ∧
      analysis.Counts position token ∧ token.text = "B" ∧
      (analysis.source.hasReceiver position = true ∨
        declaration.kind = .plain ∧ declaration.aliasName = none ∧
          analysis.source.isCall position token = true) := by
  have hrun : ((analyze ⟨[], true, true⟩ "import a.B\nB()\n").toOption.any fun analysis =>
      analysis.unused.any (fun declaration => declaration.boundName == some "B") &&
      analysis.source.tokens.any (fun token => token.text == "B" &&
        decide (analysis.Counts 6 token))) = true := by decide +kernel
  cases hanalyze : analyze ⟨[], true, true⟩ "import a.B\nB()\n" with
  | error failure => simp [hanalyze, Except.toOption] at hrun
  | ok analysis =>
    simp only [hanalyze, Except.toOption, Option.any_some, Bool.and_eq_true, List.any_eq_true,
      beq_iff_eq, decide_eq_true_eq] at hrun
    obtain ⟨⟨declaration, hunused, hbound⟩, token, -, htext, hcounts⟩ := hrun
    exact ⟨analysis, declaration, 6, token, rfl, hunused, hbound, hcounts, htext,
      (safe_of_mem_unused hanalyze hunused).2.2.2.2.1 "B" hbound 6 token hcounts htext⟩

end Analysis

end UnusedImports
