import UnusedImports.Proofs.Outline.Pieces
import UnusedImports.Proofs.Source

/-!
How an outline divides the tokens of a source. The package clause, the imports and the body items
take stretches of tokens that are not empty and have no token in common, and what they leave out
is trivia and semicolons. A type declaration is a header and a pair of braces that match, and its
members divide what stands between the braces in the same sense.
-/
namespace UnusedImports

namespace Extent

def Disjoint (extent other : Extent) : Prop :=
  ∀ position, extent.contains position = true → other.contains position = false

theorem Disjoint.of_le {extent other : Extent} (h : extent.stop ≤ other.start) :
    extent.Disjoint other := by
  intro position hcontains
  obtain ⟨-, hstop⟩ := contains_iff.mp hcontains
  rw [Bool.eq_false_iff]
  intro hother
  obtain ⟨hstart, -⟩ := contains_iff.mp hother
  omega

end Extent

namespace Token

/-- The extents lie between two positions, are not empty and do not overlap, and all other tokens
between the positions are trivia and semicolons. -/
structure Divides (tokens : List Token) (start stop : Nat) (extents : List Extent) : Prop where
  nonempty : ∀ extent ∈ extents, extent.start < extent.stop
  inside : ∀ extent ∈ extents, start ≤ extent.start ∧ extent.stop ≤ stop
  disjoint : extents.Pairwise Extent.Disjoint
  others : ∀ position token, start ≤ position → position < stop →
    tokens[position]? = some token → (∀ extent ∈ extents, extent.contains position = false) →
      token.isTrivia = true ∨ token.isSign ";" = true

/-- The tokens at two positions are braces that match: what stands between them is well nested. -/
structure Braces (tokens : List Token) (brace close : Nat) : Prop where
  brace_lt_close : brace < close
  opening : ∃ token, tokens[brace]? = some token ∧ token.isSign "\x7b" = true
  closing : ∃ token, tokens[close]? = some token ∧ token.isSign "\x7d" = true
  nested : Outline.Nests [] (Extent.slice ⟨brace + 1, close⟩ (tokens.map Token.symbol))

theorem isTrivia_or_isSign_of_isSeparator {token : Token}
    (h : Outline.isSeparator token.symbol = true) :
    token.isTrivia = true ∨ token.isSign ";" = true := by
  rw [Outline.isSeparator, Bool.or_eq_true, isTrivia_symbol, beq_iff_eq] at h
  rcases h with htrivia | hsemicolon
  · exact Or.inl htrivia
  · exact Or.inr (isSign_of_symbol (by rw [hsemicolon]; rfl))

end Token

namespace Outline

/-- A type declaration is a header up to an opening brace and a body up to the brace that matches
it. The members divide the body in order, and so on inside them. -/
inductive Item.Divided (tokens : List Token) : Item → Prop
  | statement (extent : Extent) : Divided tokens (.statement extent)
  | declaration {start brace close : Nat} {members : List Item} (hheader : start < brace)
      (hbraces : Token.Braces tokens brace close)
      (hdivides : Token.Divides tokens (brace + 1) close (members.map Item.tokens))
      (hordered : members.Pairwise fun first second => first.tokens.stop ≤ second.tokens.start)
      (hmembers : ∀ member ∈ members, Divided tokens member) :
      Divided tokens (.declaration ⟨start, close + 1⟩ ⟨start, brace⟩ members)

section Items

variable {all : List Symbol} {start stop : Nat} {items : List Item}

theorem Tiled.bounds (h : Tiled all start stop items) :
    ∀ item ∈ items, start ≤ item.tokens.start ∧ item.tokens.start < item.tokens.stop ∧
      item.tokens.stop ≤ stop := by
  induction h with
  | nil stop => simp
  | separator _ _ _ ih =>
    intro item hmem
    have hbounds := ih item hmem
    omega
  | statement hstatement hrest ih =>
    rename_i first next stop items
    have hforward := hstatement.start_lt_stop
    have hle := hrest.start_le_stop
    intro item hmem
    rcases List.mem_cons.mp hmem with rfl | hmem
    · exact ⟨Nat.le_refl _, hforward, hle⟩
    · have hbounds := ih item hmem
      omega
  | declaration _ _ hheader _ hmembers _ _ hrest _ ih =>
    rename_i first brace close stop members items symbol _ _ _ _ _ _
    have hbody := hmembers.start_le_stop
    have hle := hrest.start_le_stop
    intro item hmem
    rcases List.mem_cons.mp hmem with rfl | hmem
    · exact ⟨Nat.le_refl _, (show first < close + 1 by omega), hle⟩
    · have hbounds := ih item hmem
      omega

theorem Tiled.pairwise (h : Tiled all start stop items) :
    items.Pairwise fun first second => first.tokens.stop ≤ second.tokens.start := by
  induction h with
  | nil stop => exact List.Pairwise.nil
  | separator _ _ _ ih => exact ih
  | statement _ hrest ih =>
    exact List.Pairwise.cons (fun item hmem => (hrest.bounds item hmem).1) ih
  | declaration _ _ _ _ _ _ _ hrest _ ih =>
    exact List.Pairwise.cons (fun item hmem => (hrest.bounds item hmem).1) ih

theorem Tiled.isSeparator (h : Tiled all start stop items) {position : Nat} {symbol : Symbol}
    (hstart : start ≤ position) (hstop : position < stop) (hsymbol : all[position]? = some symbol)
    (hnone : ∀ item ∈ items, item.tokens.contains position = false) :
    Outline.isSeparator symbol = true := by
  have hlater : ∀ {item : Item} {items : List Item},
      (∀ other ∈ item :: items, other.tokens.contains position = false) →
        item.tokens.start ≤ position → item.tokens.stop ≤ position := by
    intro item items hnone hstart
    have hfirst := hnone item List.mem_cons_self
    rw [Bool.eq_false_iff, ne_eq, Extent.contains_iff] at hfirst
    omega
  induction h with
  | nil stop => omega
  | separator hfirst hseparator hrest ih =>
    rename_i first stop items separator
    by_cases heq : position = first
    · subst heq
      obtain rfl := Option.some.inj (hfirst.symm.trans hsymbol)
      exact hseparator
    · exact ih (by omega) hstop hnone
  | statement _ _ ih =>
    exact ih (hlater hnone hstart) hstop fun item hmem => hnone item (List.mem_cons_of_mem _ hmem)
  | declaration _ _ _ _ _ _ _ _ _ ih =>
    exact ih (hlater hnone hstart) hstop fun item hmem => hnone item (List.mem_cons_of_mem _ hmem)

end Items

section Tokens

variable {tokens : List Token} {start stop : Nat} {items : List Item}

/-- Items that tile a stretch divide it. -/
theorem Tiled.divides (h : Tiled (tokens.map Token.symbol) start stop items) :
    Token.Divides tokens start stop (items.map Item.tokens) where
  nonempty := List.forall_mem_map.mpr fun item hmem => (h.bounds item hmem).2.1
  inside := List.forall_mem_map.mpr fun item hmem =>
    ⟨(h.bounds item hmem).1, (h.bounds item hmem).2.2⟩
  disjoint := List.pairwise_map.mpr (h.pairwise.imp Extent.Disjoint.of_le)
  others := by
    intro position token hstart hstop htoken hnone
    apply Token.isTrivia_or_isSign_of_isSeparator
    refine h.isSeparator hstart hstop ?_ (List.forall_mem_map.mp hnone)
    rw [List.getElem?_map, htoken]
    rfl

theorem Tiled.divided (h : Tiled (tokens.map Token.symbol) start stop items) :
    ∀ item ∈ items, item.Divided tokens := by
  -- The members of a declaration tile its body, so the induction reaches them as well.
  induction h with
  | nil stop => simp
  | separator _ _ _ ih => exact ih
  | statement _ _ ih => exact List.forall_mem_cons.mpr ⟨.statement _, ih⟩
  | declaration _ _ hheader hbrace hmembers hclose hinside _ ihmembers ih =>
    rw [List.getElem?_map, Option.map_eq_some_iff] at hbrace hclose
    obtain ⟨opening, hopening, hopens⟩ := hbrace
    obtain ⟨closing, hclosing, hcloses⟩ := hclose
    have hbraces : Token.Braces tokens _ _ :=
      ⟨hmembers.start_le_stop, ⟨opening, hopening, Token.isSign_of_symbol (by rw [hopens]; rfl)⟩,
        ⟨closing, hclosing, Token.isSign_of_symbol (by rw [hcloses]; rfl)⟩, hinside⟩
    exact List.forall_mem_cons.mpr
      ⟨.declaration hheader hbraces hmembers.divides hmembers.pairwise ihmembers, ih⟩

end Tokens

section Assembly

variable {pieces : List Piece}

theorem imports_sublist (pieces : List Piece) :
    ((assemble pieces).imports.map ImportStatement.tokens).Sublist (pieces.map Piece.extent) := by
  induction pieces with
  | nil => exact List.Sublist.refl _
  | cons piece pieces ih =>
    rw [assemble_cons, List.map_cons]
    cases piece with
    | importStatement statement => exact ih.cons_cons _
    | _ => exact ih.cons _

theorem body_sublist (pieces : List Piece) :
    ((assemble pieces).body.map Item.tokens).Sublist (pieces.map Piece.extent) := by
  induction pieces with
  | nil => exact List.Sublist.refl _
  | cons piece pieces ih =>
    rw [assemble_cons, List.map_cons]
    cases piece with
    | bodyItem item => exact ih.cons_cons _
    | heading tokens => exact ih.cons_cons _
    | _ => exact ih.cons _

end Assembly

def extents (outline : Outline) : List Extent :=
  outline.package.toList ++ outline.imports.map ImportStatement.tokens ++
    outline.body.map Item.tokens

section Cutting

variable {symbols : List Symbol} {outline : Outline} {pieces : List Piece}

theorem Cuts.pairwise_imports (hcuts : Cuts [] symbols true outline pieces) :
    outline.imports.Pairwise fun first second => first.tokens.stop ≤ second.tokens.start := by
  rw [hcuts.assembled]
  exact List.pairwise_map.mp (hcuts.tiles.pairwise.sublist (imports_sublist pieces))

theorem Cuts.pairwise_body (hcuts : Cuts [] symbols true outline pieces) :
    outline.body.Pairwise fun first second => first.tokens.stop ≤ second.tokens.start := by
  rw [hcuts.assembled]
  exact List.pairwise_map.mp (hcuts.tiles.pairwise.sublist (body_sublist pieces))

/-- Each stretch that the outline names is one of the pieces. -/
theorem Cuts.mem_extents (hcuts : Cuts [] symbols true outline pieces) {extent : Extent} :
    extent ∈ outline.extents ↔
      ∃ piece ∈ pieces, (∀ position, piece ≠ .separator position) ∧ piece.extent = extent := by
  unfold extents
  simp only [List.mem_append, Option.mem_toList, List.mem_map]
  rw [hcuts.assembled]
  constructor
  · rintro ((hpackage | ⟨statement, hmem, rfl⟩) | ⟨item, hmem, rfl⟩)
    · exact ⟨_, mem_of_package_assemble hpackage, by simp, rfl⟩
    · exact ⟨_, mem_imports_assemble.mp hmem, by simp, rfl⟩
    · rcases mem_body_assemble.mp hmem with hitem | ⟨tokens, rfl, hheading⟩
      · exact ⟨_, hitem, by simp, rfl⟩
      · exact ⟨_, hheading, by simp, rfl⟩
  · rintro ⟨piece, hmem, hsolid, rfl⟩
    cases piece with
    | separator position => exact absurd rfl (hsolid position)
    | importStatement statement =>
      exact Or.inl (Or.inr ⟨statement, mem_imports_assemble.mpr hmem, rfl⟩)
    | heading tokens =>
      exact Or.inr ⟨.statement tokens, mem_body_assemble.mpr (Or.inr ⟨tokens, rfl, hmem⟩), rfl⟩
    | package tokens =>
      refine Or.inl (Or.inl ?_)
      rw [← hcuts.assembled]
      exact (hcuts.package tokens hmem).2
    | bodyItem item =>
      exact Or.inr ⟨item, mem_body_assemble.mpr (Or.inl hmem), rfl⟩

/-- Different pieces have no position in common. -/
theorem Cuts.disjoint (hcuts : Cuts [] symbols true outline pieces) {first second : Piece}
    (hfirst : first ∈ pieces) (hsecond : second ∈ pieces) (hne : first ≠ second) :
    first.extent.Disjoint second.extent := by
  intro position hcontains
  rw [Bool.eq_false_iff]
  intro hother
  exact hne (hcuts.tiles.eq_of_contains hfirst hsecond hcontains hother)

/-- The stretches that the outline names do not overlap. -/
theorem Cuts.pairwise_extents (hcuts : Cuts [] symbols true outline pieces) :
    outline.extents.Pairwise Extent.Disjoint := by
  have hordered : (pieces.map Piece.extent).Pairwise Extent.Disjoint :=
    hcuts.tiles.pairwise.imp Extent.Disjoint.of_le
  unfold extents
  rw [hcuts.assembled, List.pairwise_append, List.pairwise_append]
  refine ⟨⟨?_, hordered.sublist (imports_sublist pieces), ?_⟩,
    hordered.sublist (body_sublist pieces), ?_⟩
  · cases (assemble pieces).package <;> simp
  · intro package hpackage tokens htokens
    obtain ⟨statement, hstatement, rfl⟩ := List.mem_map.mp htokens
    exact hcuts.disjoint (mem_of_package_assemble (Option.mem_toList.mp hpackage))
      (mem_imports_assemble.mp hstatement) (by simp)
  · intro extent hextent tokens htokens
    obtain ⟨item, hitem, rfl⟩ := List.mem_map.mp htokens
    have hbody : ∃ piece ∈ pieces, piece.extent = item.tokens ∧
        (∀ tokens, piece ≠ .package tokens) ∧ ∀ statement, piece ≠ .importStatement statement := by
      rcases mem_body_assemble.mp hitem with hitem | ⟨tokens, rfl, hheading⟩
      · exact ⟨_, hitem, rfl, by simp, by simp⟩
      · exact ⟨_, hheading, rfl, by simp, by simp⟩
    obtain ⟨piece, hpiece, hsame, hpackage, himport⟩ := hbody
    rw [← hsame]
    rcases List.mem_append.mp hextent with hfirst | hfirst
    · exact hcuts.disjoint (mem_of_package_assemble (Option.mem_toList.mp hfirst)) hpiece
        (hpackage extent).symm
    · obtain ⟨statement, hstatement, rfl⟩ := List.mem_map.mp hfirst
      exact hcuts.disjoint (mem_imports_assemble.mp hstatement) hpiece (himport statement).symm

/-- What no stretch of the outline holds is a separator. -/
theorem Cuts.isSeparator (hcuts : Cuts [] symbols true outline pieces) {position : Nat}
    {symbol : Symbol} (hsymbol : symbols[position]? = some symbol)
    (hnone : ∀ extent ∈ outline.extents, extent.contains position = false) :
    Outline.isSeparator symbol = true := by
  obtain ⟨hlt, -⟩ := List.getElem?_eq_some_iff.mp hsymbol
  obtain ⟨extent, hextent, hcontains⟩ :=
    hcuts.tiles.exists_contains (Nat.zero_le position) (by simpa using hlt)
  obtain ⟨piece, hmem, rfl⟩ := List.mem_map.mp hextent
  cases piece with
  | separator first =>
    obtain ⟨hfirst, hstop⟩ := Extent.contains_iff.mp hcontains
    obtain rfl : position = first := Nat.le_antisymm (Nat.le_of_lt_succ hstop) hfirst
    obtain ⟨found, hfound, hseparator⟩ := hcuts.valid _ hmem
    obtain rfl := Option.some.inj (hfound.symm.trans hsymbol)
    exact hseparator
  | _ => simp [hnone _ (hcuts.mem_extents.mpr ⟨_, hmem, by simp, rfl⟩)] at hcontains

/-- The stretches that the outline names divide the tokens. -/
theorem Cuts.divides {tokens : List Token}
    (hcuts : Cuts [] (tokens.map Token.symbol) true outline pieces) :
    Token.Divides tokens 0 tokens.length outline.extents where
  nonempty := by
    intro extent hextent
    obtain ⟨piece, hmem, -, rfl⟩ := hcuts.mem_extents.mp hextent
    exact (hcuts.valid piece hmem).start_lt_stop
  inside := by
    intro extent hextent
    obtain ⟨piece, hmem, -, rfl⟩ := hcuts.mem_extents.mp hextent
    have hbounds := hcuts.tiles.bounds.2 _ (List.mem_map_of_mem hmem)
    simp only [List.length_nil, List.length_map] at hbounds
    omega
  disjoint := hcuts.pairwise_extents
  others := by
    intro position token _ _ htoken hnone
    apply Token.isTrivia_or_isSign_of_isSeparator
    refine hcuts.isSeparator ?_ hnone
    rw [List.getElem?_map, htoken]
    rfl

end Cutting

end Outline

namespace Source

structure Divided (source : Source) : Prop where
  divides : Token.Divides source.tokens 0 source.tokens.length source.outline.extents
  imports : source.outline.imports.Pairwise fun first second =>
    first.tokens.stop ≤ second.tokens.start
  body : source.outline.body.Pairwise fun first second => first.tokens.stop ≤ second.tokens.start
  items : ∀ item ∈ source.outline.body, item.Divided source.tokens

/-- The outline of a source that was read divides its tokens. -/
theorem divided_of_read {text : List Char} {source : Source} (h : read text = .ok source) :
    source.Divided := by
  obtain ⟨-, -, -, houtline⟩ := of_read h
  obtain ⟨pieces, hcuts⟩ := Outline.exists_cuts houtline
  refine ⟨hcuts.divides, hcuts.pairwise_imports, hcuts.pairwise_body, ?_⟩
  intro item hitem
  rw [hcuts.assembled] at hitem
  rcases Outline.mem_body_assemble.mp hitem with hpiece | ⟨tokens, rfl, -⟩
  · have hplaced := (hcuts.valid _ hpiece).2
    exact (hplaced.cons (.nil _)).divided item List.mem_cons_self
  · exact .statement tokens

/-- Annotations before the package clause, an annotated import, and a type inside another one. -/
theorem divided_of_read_nested :
    ∃ source,
      read "@A package p\n@B import c.D;\nclass E \x7b D d; class F \x7b\x7d \x7d\n".toList =
        .ok source ∧
      source.outline.extents = [⟨3, 6⟩, ⟨7, 16⟩, ⟨0, 3⟩, ⟨17, 36⟩] ∧
      source.outline.body.map Outline.Item.parts =
        [[⟨0, 3⟩], [⟨17, 21⟩, ⟨23, 26⟩, ⟨28, 32⟩]] ∧
      source.Divided := by
  have hrun : ((read
      "@A package p\n@B import c.D;\nclass E \x7b D d; class F \x7b\x7d \x7d\n".toList).toOption.any
        fun source =>
          source.outline.extents == [⟨3, 6⟩, ⟨7, 16⟩, ⟨0, 3⟩, ⟨17, 36⟩] &&
          source.outline.body.map Outline.Item.parts ==
            [[⟨0, 3⟩], [⟨17, 21⟩, ⟨23, 26⟩, ⟨28, 32⟩]]) = true := by decide +kernel
  generalize "@A package p\n@B import c.D;\nclass E \x7b D d; class F \x7b\x7d \x7d\n".toList =
    text at hrun ⊢
  cases hread : read text with
  | error failure => simp [hread, Except.toOption] at hrun
  | ok source =>
    simp only [hread, Except.toOption, Option.any_some, Bool.and_eq_true, beq_iff_eq] at hrun
    exact ⟨source, rfl, hrun.1, hrun.2, divided_of_read hread⟩

end Source

end UnusedImports
