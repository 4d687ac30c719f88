import UnusedImports.Proofs.Outline.Phrase

/-!
Items tile what they are read from. Between two items stand only separators; a statement ends
where its line does or at a semicolon, unless a bracket is open; a type declaration is a
header, a body in braces and nothing else, and its members tile the body in the same sense.
-/
namespace UnusedImports.Outline

/-- What the sign of an annotation opens is passed over, or else the sign alone. -/
theorem passes_passAnnotations {rest : List Symbol} (hnests : Nests [] (.atSign :: rest)) :
    Passes (fun _ => true) rest (passAnnotations rest) := by
  unfold passAnnotations
  cases h : skipAnnotations false (.atSign :: rest) with
  | none => exact Passes.refl _ rest
  | some later =>
    obtain ⟨read, hread, hnested, -⟩ := passes_skipAnnotations false _ hnests later h
    have hshorter := length_skipAnnotations false _ _ h
    cases read with
    | nil =>
      rw [← List.nil_append later, ← hread] at hshorter
      simp only [Bool.false_eq_true, ↓reduceIte] at hshorter
      omega
    | cons symbol read =>
      obtain ⟨rfl, rfl⟩ := List.cons.inj hread
      exact ⟨read, rfl, hnested.tail rfl, fun _ _ => rfl⟩

theorem isBracket_of_isModifier {symbol : Symbol} (h : isModifier symbol = true) :
    symbol.isBracket = false := by
  cases symbol <;> simp_all [isModifier, Symbol.isBracket]

theorem isBracket_of_opensType {symbol : Symbol} (h : opensType symbol = true) :
    symbol.isBracket = false := by
  cases symbol <;> simp_all [opensType, Symbol.isBracket]

/-- The next symbol that is not trivia, if it is no bracket. -/
theorem passes_skipTrivia_cons {symbols rest : List Symbol} {symbol : Symbol}
    (h : skipTrivia symbols = symbol :: rest) (hplain : symbol.isBracket = false) :
    Passes (fun _ => true) symbols rest :=
  (passes_of_skipTrivia h).balanced.trans (Passes.plain hplain rfl rest)

theorem passes_afterTypeWord (symbols : List Symbol) (hnests : Nests [] symbols) :
    ∀ rest, afterTypeWord? symbols = some rest → Passes (fun _ => true) symbols rest := by
  fun_induction afterTypeWord? symbols with
  | case1 => intro result h; simp at h
  | case2 symbols symbol rest hskip hmod ih =>
    intro result h
    have hpast := passes_skipTrivia_cons hskip (isBracket_of_isModifier hmod)
    exact hpast.trans (ih (hpast.nests hnests) result h)
  | case3 symbols rest hinterface hskip hmod =>
    intro result h
    simp only [Option.some.injEq] at h
    have hpast := passes_skipTrivia_cons hskip rfl
    cases hword : skipTrivia rest with
    | nil => simp [hword] at hinterface
    | cons word after =>
      rw [hword] at hinterface h
      simp only [List.head?_cons, Option.some.injEq] at hinterface
      subst hinterface
      exact hpast.trans (h ▸ passes_skipTrivia_cons hword rfl)
  | case4 symbols rest hinterface hskip hmod ih =>
    intro result h
    have hsign := (passes_of_skipTrivia hskip).balanced
    have hpast := hsign.trans
      ((Passes.plain rfl rfl rest).trans (passes_passAnnotations (hsign.nests hnests)))
    exact hpast.trans (ih (hpast.nests hnests) result h)
  | case5 symbols symbol rest hskip hmod hat hopens =>
    intro result h
    simp only [Option.some.injEq] at h
    exact h ▸ passes_skipTrivia_cons hskip (isBracket_of_opensType hopens)
  | case6 => intro result h; simp at h

/-- The brace that opens a body stands after well nested symbols. -/
theorem passes_afterBodyBrace (symbols : List Symbol) (hnests : Nests [] symbols) :
    ∀ rest, afterBodyBrace? symbols = some rest →
      Passes (fun _ => true) symbols (.opening .curly :: rest) := by
  fun_induction afterBodyBrace? symbols with
  | case1 => intro result h; simp at h
  | case2 symbols rest hskip =>
    intro result h
    simp only [Option.some.injEq] at h
    exact h ▸ (passes_of_skipTrivia hskip).balanced
  | case3 => intro result h; simp at h
  | case4 symbols symbol rest hskip hcurly hstop hgroup ih =>
    intro result h
    have hsign := (passes_of_skipTrivia hskip).balanced
    have hpast : Passes (fun _ => true) symbols (afterGroup rest) := by
      rcases hgroup with rfl | rfl
      · exact hsign.trans (passes_afterGroup (hsign.nests hnests) rfl)
      · exact hsign.trans (passes_afterGroup (hsign.nests hnests) rfl)
    exact hpast.trans (ih (hpast.nests hnests) result h)
  | case5 symbols symbol rest hskip hcurly hstop hgroup ih =>
    intro result h
    have hsign := (passes_of_skipTrivia hskip).balanced
    have hplain : symbol.isBracket = false := by
      cases symbol with
      | opening bracket => cases bracket <;> simp_all
      | closing bracket => exact absurd (hsign.nests hnests) Nests.head_ne_closing
      | _ => rfl
    have hpast := hsign.trans (Passes.plain hplain rfl rest)
    exact hpast.trans (ih (hpast.nests hnests) result h)

/-- A type declaration has a header before the brace that opens its body. -/
theorem exists_header {symbols body : List Symbol} (hnests : Nests [] symbols)
    (h : typeBody? symbols = some body) :
    ∃ header, symbols = header ++ .opening .curly :: body ∧ Nests [] header ∧ header ≠ [] := by
  unfold typeBody? at h
  split at h
  · rename_i rest hword
    have hannotations := (passes_afterAnnotations hnests).balanced
    have hpast := hannotations.trans
      (passes_afterTypeWord _ (hannotations.nests hnests) rest hword)
    split at h
    · rename_i name after hname
      have hnamed := hpast.trans (passes_skipTrivia_cons hname rfl)
      obtain ⟨header, hheader, hbalanced, -⟩ := hnamed.trans
        (passes_afterBodyBrace after (hnamed.nests hnests) body h)
      refine ⟨header, hheader, hbalanced, ?_⟩
      rintro rfl
      -- The word that opens the declaration was read, so fewer symbols are left than there were.
      have hshort := length_afterTypeWord _ _ hword
      have hannot := length_afterAnnotations symbols
      have hbrace := length_afterBodyBrace _ _ h
      have hskip := length_of_skipTrivia hname
      have hlength := congrArg List.length hheader
      simp only [List.nil_append, List.length_cons] at hlength
      omega
    · simp at h
  · simp at h

def Continues (symbols : List Symbol) : Prop :=
  ∀ first second, symbols = first ++ .newline :: second →
    ∃ symbol ∈ second, symbol.isTrivia = false

theorem Continues.nil : Continues [] := by
  intro first second h
  simp at h

theorem Continues.cons {symbol : Symbol} {rest : List Symbol} (hsymbol : symbol ≠ .newline)
    (h : Continues rest) : Continues (symbol :: rest) := by
  intro first second hsplit
  cases first with
  | nil => exact absurd (List.cons.inj hsplit).1 hsymbol
  | cons head first => exact h first second (List.cons.inj hsplit).2

/-- A line end inside a group is followed by the bracket that closes it. -/
theorem Continues.group {bracket : Bracket} {rest : List Symbol} (h : Continues rest)
    (inside : List Symbol) : Continues (inside ++ .closing bracket :: rest) := by
  intro first second hsplit
  induction inside generalizing first with
  | nil => exact h.cons (by simp) first second hsplit
  | cons symbol inside ih =>
    cases first with
    | nil =>
      obtain ⟨-, hsecond⟩ := List.cons.inj hsplit
      exact ⟨.closing bracket, by simp [← hsecond], rfl⟩
    | cons head first => exact ih first (List.cons.inj hsplit).2

/-- Whether a statement ends before the symbol: at a line end, at a semicolon, or with the body
it stands in. -/
def endsStatement : Symbol → Bool
  | .newline | .semicolon | .closing .curly => true
  | _ => false

/-- A statement goes to the next line end or semicolon outside brackets. -/
theorem exists_statement (symbols : List Symbol) (hnests : Nests [] symbols) :
    ∃ read, symbols = read ++ statementEnd symbols ∧ Nests [] read ∧ Continues read ∧
      ∀ symbol, (statementEnd symbols).head? = some symbol → endsStatement symbol = true := by
  fun_induction statementEnd symbols with
  | case1 => exact ⟨[], rfl, Nests.nil, Continues.nil, by simp⟩
  | case2 rest => exact ⟨[], rfl, Nests.nil, Continues.nil, by simp [endsStatement]⟩
  | case3 rest => exact ⟨[], rfl, Nests.nil, Continues.nil, by simp [endsStatement]⟩
  | case4 rest bracket ih =>
    obtain ⟨hsplit, hinside, hafter⟩ := splitGroup_zero_of_nests hnests
    obtain ⟨read, hread, hbalanced, hcontinues, hends⟩ := ih hafter
    refine ⟨.opening bracket :: ((splitGroup 0 rest).1 ++ .closing bracket :: read), ?_, ?_, ?_,
      hends⟩
    · conv => lhs; rw [hsplit, show (splitGroup 0 rest).2 = afterGroup rest from rfl, hread]
      simp
    · exact Nests.opening (hinside.append (Nests.closing hbalanced))
    · exact (hcontinues.group _).cons (by simp)
  | case5 symbol rest hnewline hsemicolon hopening ih =>
    have hplain : symbol.isBracket = false := by
      cases symbol with
      | opening bracket => exact absurd rfl (hopening bracket)
      | closing bracket => exact absurd hnests Nests.head_ne_closing
      | _ => rfl
    obtain ⟨read, hread, hbalanced, hcontinues, hends⟩ := ih (hnests.tail hplain)
    refine ⟨symbol :: read, ?_, Nests.plain hplain hbalanced, ?_, hends⟩
    · conv => lhs; rw [hread]
      simp
    · exact hcontinues.cons hnewline

/-- A statement has its first symbol, whatever that is. -/
theorem exists_afterStatement {symbol : Symbol} {rest : List Symbol}
    (hsymbol : isSeparator symbol = false) (hnests : Nests [] (symbol :: rest)) :
    ∃ read, rest = read ++ afterStatement symbol rest ∧ Nests [] (symbol :: read) ∧
      Continues (symbol :: read) ∧
      ∀ next, (afterStatement symbol rest).head? = some next → endsStatement next = true := by
  have hafter : afterStatement symbol rest = statementEnd (symbol :: rest) := by
    cases symbol <;>
      simp_all [afterStatement, statementEnd, isSeparator, Symbol.isTrivia]
  obtain ⟨read, hread, hbalanced, hcontinues, hends⟩ := exists_statement _ hnests
  rw [← hafter] at hread hends
  cases read with
  | nil =>
    have hlength := length_afterStatement symbol rest
    rw [← List.nil_append (afterStatement symbol rest), ← hread] at hlength
    simp only [List.length_cons] at hlength
    omega
  | cons head read =>
    obtain ⟨rfl, hrest⟩ := List.cons.inj hread
    exact ⟨read, hrest, hbalanced, hcontinues, hends⟩

structure StatementAt (all : List Symbol) (start stop : Nat) : Prop where
  start_lt_stop : start < stop
  first : ∃ symbol, all[start]? = some symbol ∧ isSeparator symbol = false
  ends : ∀ symbol, all[stop]? = some symbol → endsStatement symbol = true
  continues : ∀ position, start ≤ position → position < stop →
    all[position]? = some .newline →
      ∃ later symbol, position < later ∧ later < stop ∧ all[later]? = some symbol ∧
        symbol.isTrivia = false

/-- Items stand one after the other between two positions, with separators between them. -/
inductive Tiled (all : List Symbol) : Nat → Nat → List Item → Prop
  | nil (stop : Nat) : Tiled all stop stop []
  | separator {start stop : Nat} {items : List Item} {symbol : Symbol}
      (hsymbol : all[start]? = some symbol) (hseparator : isSeparator symbol = true)
      (hrest : Tiled all (start + 1) stop items) : Tiled all start stop items
  | statement {start next stop : Nat} {items : List Item}
      (hstatement : StatementAt all start next) (hrest : Tiled all next stop items) :
      Tiled all start stop (.statement ⟨start, next⟩ :: items)
  | declaration {start brace close stop : Nat} {members items : List Item} {symbol : Symbol}
      (hfirst : all[start]? = some symbol) (hsolid : isSeparator symbol = false)
      (hheader : start < brace) (hbrace : all[brace]? = some (.opening .curly))
      (hmembers : Tiled all (brace + 1) close members)
      (hclose : all[close]? = some (.closing .curly))
      (hinside : Nests [] (Extent.slice ⟨brace + 1, close⟩ all))
      (hrest : Tiled all (close + 1) stop items) :
      Tiled all start stop (.declaration ⟨start, close + 1⟩ ⟨start, brace⟩ members :: items)

theorem Tiled.start_le_stop {all : List Symbol} {start stop : Nat} {items : List Item}
    (h : Tiled all start stop items) : start ≤ stop := by
  induction h with
  | nil stop => exact Nat.le_refl _
  | separator _ _ _ ih => omega
  | statement hstatement _ ih =>
    have hforward := hstatement.start_lt_stop
    omega
  | declaration _ _ hheader _ _ _ _ _ ihmembers ih => omega

inductive Placed (all : List Symbol) : Item → Prop
  | statement {start stop : Nat} (hstatement : StatementAt all start stop) :
      Placed all (.statement ⟨start, stop⟩)
  | declaration {start brace close : Nat} {members : List Item} {symbol : Symbol}
      (hfirst : all[start]? = some symbol) (hsolid : isSeparator symbol = false)
      (hheader : start < brace) (hbrace : all[brace]? = some (.opening .curly))
      (hmembers : Tiled all (brace + 1) close members)
      (hclose : all[close]? = some (.closing .curly))
      (hinside : Nests [] (Extent.slice ⟨brace + 1, close⟩ all)) :
      Placed all (.declaration ⟨start, close + 1⟩ ⟨start, brace⟩ members)

theorem Placed.cons {all : List Symbol} {item : Item} {items : List Item} {stop : Nat}
    (h : Placed all item) (hrest : Tiled all item.tokens.stop stop items) :
    Tiled all item.tokens.start stop (item :: items) := by
  cases h with
  | statement hstatement => exact Tiled.statement hstatement hrest
  | declaration hfirst hsolid hheader hbrace hmembers hclose hinside =>
    exact Tiled.declaration hfirst hsolid hheader hbrace hmembers hclose hinside hrest

theorem getElem?_middle {before symbols after : List Symbol} (position : Nat)
    (h : position < symbols.length) :
    (before ++ symbols ++ after)[before.length + position]? = symbols[position]? := by
  rw [List.append_assoc, List.getElem?_append_right (Nat.le_add_right _ _),
    Nat.add_sub_cancel_left, List.getElem?_append_left h]

theorem slice_middle (before symbols after : List Symbol) :
    Extent.slice ⟨before.length, before.length + symbols.length⟩ (before ++ symbols ++ after) =
      symbols := by
  simp [Extent.slice]

theorem getElem?_append_length (before after : List Symbol) (symbol : Symbol) :
    (before ++ symbol :: after)[before.length]? = some symbol := by simp

/-- A statement of a list is one at its position in a larger list. -/
theorem StatementAt.of_read {before read after : List Symbol} {symbol : Symbol}
    (hsymbol : isSeparator symbol = false) (hcontinues : Continues (symbol :: read))
    (hends : ∀ next, after.head? = some next → endsStatement next = true) :
    StatementAt (before ++ symbol :: read ++ after) before.length
      (before.length + (read.length + 1)) where
  start_lt_stop := by omega
  first := ⟨symbol, by simp, hsymbol⟩
  ends := by
    intro next hnext
    rw [List.getElem?_append_right (by simp)] at hnext
    apply hends next
    simpa [List.head?_eq_getElem?] using hnext
  continues := by
    intro position hstart hstop hnewline
    obtain ⟨offset, rfl⟩ := Nat.exists_eq_add_of_le hstart
    have hoffset : offset < (symbol :: read).length := by simp only [List.length_cons]; omega
    rw [getElem?_middle _ hoffset] at hnewline
    obtain ⟨_, hget⟩ := List.getElem?_eq_some_iff.mp hnewline
    have hsplit : symbol :: read =
        (symbol :: read).take offset ++ .newline :: (symbol :: read).drop (offset + 1) := by
      conv => lhs; rw [← List.take_append_drop offset (symbol :: read)]
      rw [List.drop_eq_getElem_cons hoffset, hget]
    obtain ⟨solid, hmem, hsolid⟩ := hcontinues _ _ hsplit
    obtain ⟨further, hfurther, hget⟩ := List.mem_iff_getElem.mp hmem
    simp only [List.length_drop, List.length_cons] at hfurther
    refine ⟨before.length + (offset + 1 + further), solid, by omega, by omega, ?_, hsolid⟩
    rw [getElem?_middle _ (by simp only [List.length_cons]; omega)]
    rw [List.getElem_drop] at hget
    exact List.getElem?_eq_some_iff.mpr ⟨_, hget⟩

/-- The items of the symbols that stand between others tile them, provided that a body which
ends there ends with its brace. -/
def ItemsTile (symbols : List Symbol) : Prop :=
  ∀ before after : List Symbol, ∀ stop : Nat, stop = before.length + symbols.length →
    (∀ next, after.head? = some next → endsStatement next = true) → Nests [] symbols →
      Tiled (before ++ symbols ++ after) before.length stop (items stop symbols)

/-- The first item stands where it was read, if the members of a type declaration tile its
body. -/
theorem placed_firstItem_of_itemsTile (before after : List Symbol) {rest : List Symbol}
    {symbol : Symbol} {stop : Nat} (hsolid : isSeparator symbol = false)
    (hnests : Nests [] (symbol :: rest))
    (hstop : stop = before.length + (rest.length + 1))
    (hafter : ∀ next, after.head? = some next → endsStatement next = true)
    (hmembers : ∀ inside, inside.length < rest.length + 1 → ItemsTile inside) :
    Passes (fun _ => true) (symbol :: rest) (firstItem stop symbol rest).2 ∧
      Placed (before ++ symbol :: rest ++ after) (firstItem stop symbol rest).1 ∧
      (firstItem stop symbol rest).1.tokens =
        ⟨before.length, stop - (firstItem stop symbol rest).2.length⟩ := by
  unfold firstItem
  cases hbody : typeBody? (symbol :: rest) with
  | none =>
    obtain ⟨read, hread, hbalanced, hcontinues, hends⟩ := exists_afterStatement hsolid hnests
    simp only
    generalize afterStatement symbol rest = later at *
    subst hread
    refine ⟨⟨symbol :: read, rfl, hbalanced, fun _ _ => rfl⟩, ?_⟩
    rw [Item.tokens]
    have hstart : stop - ((read ++ later).length + 1) = before.length := by omega
    have hnext : stop - later.length = before.length + (read.length + 1) := by
      simp only [List.length_append] at hstop
      omega
    rw [hstart, hnext]
    refine ⟨Placed.statement ?_, rfl⟩
    have hfollow : ∀ next, (later ++ after).head? = some next → endsStatement next = true := by
      intro next hnext
      cases later with
      | nil => exact hafter next hnext
      | cons head later => exact hends next hnext
    have hat : StatementAt (before ++ symbol :: read ++ (later ++ after)) before.length
        (before.length + (read.length + 1)) := StatementAt.of_read hsolid hcontinues hfollow
    simpa using hat
  | some body =>
    obtain ⟨header, hheader, hbalanced, hnonempty⟩ := exists_header hnests hbody
    obtain ⟨hsplit, hinside, -⟩ :=
      splitGroup_zero_of_nests (Nests.of_append hbalanced (hheader ▸ hnests))
    simp only
    generalize (splitGroup 0 body).1 = inside at *
    generalize (splitGroup 0 body).2 = later at *
    subst hsplit
    have hlength := congrArg List.length hheader
    have hheaderlength := List.length_pos_iff.mpr hnonempty
    simp only [List.length_append, List.length_cons] at hlength
    refine ⟨⟨header ++ .opening .curly :: (inside ++ [.closing .curly]), by simp [hheader],
      hbalanced.append (Nests.opening (hinside.append (Nests.closing Nests.nil))),
      fun _ _ => rfl⟩, ?_⟩
    rw [Item.tokens]
    have hstart : stop - (rest.length + 1) = before.length := by omega
    have hbrace : stop - ((inside ++ .closing .curly :: later).length + 1) =
        before.length + header.length := by
      simp only [List.length_append, List.length_cons]
      omega
    have hclose : stop - (later.length + 1) =
        before.length + header.length + 1 + inside.length := by omega
    have hnext : stop - later.length = before.length + header.length + 1 + inside.length + 1 := by
      omega
    rw [hstart, hbrace, hclose, hnext, hheader]
    have htiled := hmembers inside (by omega) (before ++ header ++ [.opening .curly])
      (.closing .curly :: (later ++ after)) (before.length + header.length + 1 + inside.length)
      (by simp [Nat.add_assoc]) (by simp [endsStatement]) hinside
    have hall : before ++ header ++ [.opening .curly] ++ inside ++
        .closing .curly :: (later ++ after) =
        before ++ (header ++ .opening .curly :: (inside ++ .closing .curly :: later)) ++ after := by
      simp
    have hlead : (before ++ header ++ [Symbol.opening .curly]).length =
        before.length + header.length + 1 := by
      simp only [List.length_append, List.length_cons, List.length_nil]
    refine ⟨Placed.declaration ?_ hsolid (by omega) ?_ ?_ ?_ ?_, rfl⟩
    · rw [← hheader]
      simp
    · rw [List.getElem?_append_left (by simp), List.getElem?_append_right (by omega)]
      simp
    · rw [← hall]
      simpa [Nat.add_assoc] using htiled
    · have hposition : (before ++ header ++ [Symbol.opening .curly] ++ inside).length =
          before.length + header.length + 1 + inside.length := by
        simp only [List.length_append, List.length_cons, List.length_nil]
      rw [← hall, ← hposition]
      exact getElem?_append_length _ _ _
    · rw [← hall, ← hlead, slice_middle]
      exact hinside

theorem items_cons {symbol : Symbol} (hsolid : isSeparator symbol = false) (stop : Nat)
    (rest : List Symbol) :
    items stop (symbol :: rest) =
      (firstItem stop symbol rest).1 :: items stop (firstItem stop symbol rest).2 := by
  rw [items, if_neg (by simp [hsolid])]
  unfold firstItem
  split
  · rename_i body hbody
    simp [hbody]
  · rename_i hbody
    simp [hbody]

/-- The items of well nested symbols tile them. -/
theorem itemsTile (symbols : List Symbol) : ItemsTile symbols := by
  induction hlength : symbols.length using Nat.strongRecOn generalizing symbols with
  | ind length ih =>
    intro before after stop hstop hafter hnests
    cases symbols with
    | nil =>
      rw [items]
      simp only [List.length_nil, Nat.add_zero] at hstop
      exact hstop ▸ Tiled.nil _
    | cons symbol rest =>
      simp only [List.length_cons] at hlength hstop
      by_cases hseparator : isSeparator symbol = true
      · have hplain : symbol.isBracket = false := by
          cases symbol <;> simp_all [isSeparator, Symbol.isTrivia, Symbol.isBracket]
        have htiled := ih rest.length (by omega) rest rfl (before ++ [symbol]) after stop
          (by simp only [List.length_append, List.length_cons, List.length_nil]; omega) hafter
          (hnests.tail hplain)
        rw [items, if_pos hseparator]
        apply Tiled.separator (by simp) hseparator
        simpa using htiled
      · have hsolid : isSeparator symbol = false := by simpa using hseparator
        obtain ⟨⟨read, hread, hbalanced, -⟩, hplaced, htokens⟩ :=
          placed_firstItem_of_itemsTile before after hsolid hnests hstop hafter
            fun inside hinside => ih inside.length (by omega) inside rfl
        have hshorter := length_firstItem stop symbol rest
        rw [items_cons hsolid]
        generalize (firstItem stop symbol rest).1 = item at *
        generalize (firstItem stop symbol rest).2 = later at *
        have hreadlength := congrArg List.length hread
        simp only [List.length_append, List.length_cons] at hreadlength
        have hrest := ih later.length (by omega) later rfl (before ++ read) after stop
          (by simp only [List.length_append]; omega) hafter
          (Nests.of_append hbalanced (hread ▸ hnests))
        have hmiddle : stop - later.length = (before ++ read).length := by
          simp only [List.length_append]
          omega
        have hall : before ++ read ++ later ++ after = before ++ symbol :: rest ++ after := by
          simp [hread]
        rw [hall, ← hmiddle] at hrest
        have hstart : item.tokens.start = before.length := by rw [htokens]
        have hnext : item.tokens.stop = stop - later.length := by rw [htokens]
        rw [← hstart]
        exact hplaced.cons (hnext ▸ hrest)

/-- The first item of well nested symbols stands where it was read. -/
theorem placed_firstItem (before : List Symbol) {rest : List Symbol} {symbol : Symbol}
    (hsolid : isSeparator symbol = false) (hnests : Nests [] (symbol :: rest)) {stop : Nat}
    (hstop : stop = before.length + (rest.length + 1)) :
    Passes (fun _ => true) (symbol :: rest) (firstItem stop symbol rest).2 ∧
      Placed (before ++ symbol :: rest) (firstItem stop symbol rest).1 ∧
      (firstItem stop symbol rest).1.tokens =
        ⟨before.length, stop - (firstItem stop symbol rest).2.length⟩ := by
  have h := placed_firstItem_of_itemsTile before [] hsolid hnests hstop (by simp)
    fun inside _ => itemsTile inside
  simpa using h

end UnusedImports.Outline
