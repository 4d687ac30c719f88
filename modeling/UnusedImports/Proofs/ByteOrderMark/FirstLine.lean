import UnusedImports.Proofs.ByteOrderMark.Plan

/-!
When a byte order mark matters. A blank first line stays in any case, so of the lines after it the
same ones go as if they opened the text. With the mark they do not open it: their first run then
keeps another number of its blank lines, and what is left differs by the lines in between. Only
where these lie in a removed statement, they are gone anyway.
-/
namespace UnusedImports.Excision

open UnusedImports.Text

section Runs

/-- A blank line that opens the text is kept, and the run drops what it would drop without. -/
theorem surplusOfRun_cons_blank (line : Line) (atEnd : Bool) (run : List (Line × Mark)) :
    surplusOfRun true atEnd ((line, .blank) :: run) = surplusOfRun true atEnd run := by
  have hkept : kept true atEnd ((line, .blank) :: run) = kept true atEnd run + 1 := by
    simp [kept]
  unfold surplusOfRun
  rw [hkept, List.any_cons, List.filter_cons_of_pos (by simp), List.drop_succ_cons]
  rfl

theorem surplus_cons_blank (line : Line) (rest : List (Line × Mark)) :
    surplus true ((line, .blank) :: rest) = surplus true rest := by
  rw [surplus, if_neg (by simp)]
  cases rest with
  | nil => simp [surplus, surplusOfRun]
  | cons entry rest =>
    rw [surplus]
    by_cases hsolid : entry.2 = .solid
    · simp [hsolid, surplusOfRun, surplus]
    · have hstays : (entry.2 != .solid) = true := by simpa using hsolid
      simp only [if_neg hsolid, List.takeWhile_cons, List.dropWhile_cons, if_pos hstays,
        surplusOfRun_cons_blank]

theorem surplusOfRun_sublist (atEnd : Bool) (run : List (Line × Mark)) :
    (surplusOfRun true atEnd run).Sublist (surplusOfRun false atEnd run) ∨
      (surplusOfRun false atEnd run).Sublist (surplusOfRun true atEnd run) := by
  unfold surplusOfRun
  split
  · rcases Nat.le_total (kept true atEnd run) (kept false atEnd run) with hle | hle
    · exact Or.inr ((List.drop_sublist_drop_left _ hle).map _)
    · exact Or.inl ((List.drop_sublist_drop_left _ hle).map _)
  · exact Or.inl (List.Sublist.refl _)

/-- Lines that open the text drop all that they drop elsewhere, or the other way round. -/
theorem surplus_sublist (marked : List (Line × Mark)) :
    (surplus true marked).Sublist (surplus false marked) ∨
      (surplus false marked).Sublist (surplus true marked) := by
  cases marked with
  | nil =>
    rw [surplus, surplus]
    exact Or.inl (List.Sublist.refl _)
  | cons entry rest =>
    rw [surplus, surplus]
    split
    · exact Or.inl (List.Sublist.refl _)
    · simp only
      generalize rest.dropWhile (fun entry => entry.2 != .solid) = after
      rcases surplusOfRun_sublist (after.all fun entry => entry.1.text.isEmpty)
        (entry :: rest.takeWhile fun entry => entry.2 != .solid) with hrun | hrun
      · exact Or.inl (hrun.append_right _)
      · exact Or.inr (hrun.append_right _)

theorem surplusAfterMark_sublist (marked : List (Line × Mark)) :
    (surplus true marked).Sublist (surplusAfterMark marked) ∨
      (surplusAfterMark marked).Sublist (surplus true marked) := by
  unfold surplusAfterMark
  split
  · rw [surplus_cons_blank]
    exact surplus_sublist _
  · exact Or.inl (List.Sublist.refl _)

end Runs

section Blanks

variable {text : List Char} {tokens : List Token} {removals : List Extent} {number : Nat}
  {line : Line} (hblank : (marksOf text tokens removals)[number]? = some (line, .blank))

include hblank

theorem exists_head_of_blank :
    line.extent.contains line.start = true ∧ ∃ c, charAt? line.start text = some c := by
  obtain ⟨hline, hmark⟩ := getElem?_marksOf.mp hblank
  have hstands := LineIndex.stands_line (List.mem_of_getElem? hline)
  have hisblank : line.isBlank = true := by
    unfold markOf at hmark
    split at hmark
    · simp at hmark
    · split at hmark
      · assumption
      · simp at hmark
  have hne : line.text ≠ [] := by
    intro hnil
    simp [Line.isBlank, hnil] at hisblank
  have hpositive := byteLength_pos hne
  refine ⟨Extent.contains_iff.mpr ⟨Nat.le_refl _, ?_⟩, _,
    hstands.head (List.head?_eq_some_head hne)⟩
  show line.start < line.start + byteLength line.text
  omega

/-- A removed stretch holds all of a blank line or nothing of it. -/
theorem Framed.bounds_of_blank {removal : Extent} (h : Framed text removal) {offset : Nat}
    {c : Char} (hc : charAt? offset text = some c) (hline : line.extent.contains offset = true)
    (hremoved : removal.contains offset = true) :
    removal.start ≤ line.start ∧ line.stop ≤ removal.stop := by
  obtain ⟨hlow, hhigh⟩ := Extent.contains_iff.mp hline
  obtain ⟨hstart, hstop⟩ := Extent.contains_iff.mp hremoved
  obtain ⟨d, hd, hfirst⟩ := h.first
  obtain ⟨last, e, he, hlast, -, hend⟩ := h.last
  -- Neither end of the stretch is on the line.
  have hvisible : ∀ {position : Nat} {d : Char}, charAt? position text = some d →
      isSpacing d = false → ¬ line.extent.contains position = true := by
    intro position d hd hspacing hcontains
    simp [isSpacing_of_blank hblank hd hcontains] at hspacing
  constructor
  · by_cases hle : removal.start ≤ line.start
    · exact hle
    · exact absurd (Extent.contains_iff.mpr ⟨show line.start ≤ _ by omega, show _ < line.stop from
        Nat.lt_of_le_of_lt hstart hhigh⟩) (hvisible hd hfirst)
  · by_cases hle : line.stop ≤ removal.stop
    · exact hle
    · have hpositive := e.utf8Size_pos
      have hbefore : offset ≤ last := by
        by_cases hle : offset ≤ last
        · exact hle
        · have heq := eq_of_charAt? he hc (by omega) (by omega)
          omega
      exact absurd (Extent.contains_iff.mpr ⟨Nat.le_trans hlow hbefore, show last < line.stop by
        omega⟩) (hvisible he hlast)

/-- The spaces beside a removed statement are not on a blank line. -/
theorem Framed.contains_of_partialCutOf {removal : Extent} (h : Framed text removal)
    (haligned : Aligned text tokens removal) {offset : Nat}
    (hline : line.extent.contains offset = true)
    (hcut : (partialCutOf text (.ofText text) removal).contains offset = true) :
    removal.contains offset = true := by
  have hmem := List.mem_of_getElem? (getElem?_marksOf.mp hblank).1
  obtain ⟨hlow, hhigh⟩ := Extent.contains_iff.mp hline
  obtain ⟨left, right, heq, hleft, hright⟩ := exists_partialCutOf haligned
  rw [heq] at hcut
  obtain ⟨hstart, hstop⟩ := Extent.contains_iff.mp hcut
  simp only at hstart hstop
  have hforward := haligned.start_lt_stop
  have hlength := haligned.stop_le
  by_cases hbefore : offset < removal.start
  · exfalso
    obtain ⟨c, hc, hvisible⟩ := h.first
    obtain ⟨other, hother, hotherstart, hcontains⟩ := exists_shared_line (by omega)
      fun between (hge : offset ≤ between) => hleft between (by omega)
    have hstops := (Extent.contains_iff.mp hcontains).2
    have hsame : other = line := (LineIndex.tiles_lines text).eq_of_contains hother hmem
      (Extent.contains_iff.mpr ⟨hotherstart, show offset < other.stop from
        Nat.lt_trans hbefore hstops⟩) hline
    rw [hsame] at hcontains
    simp [isSpacing_of_blank hblank hc hcontains] at hvisible
  · by_cases hafter : removal.stop ≤ offset
    · exfalso
      obtain ⟨last, c, hc, hvisible, -, hend⟩ := h.last
      have hpositive := c.utf8Size_pos
      have hsame : line.start ≤ last := by
        apply LineIndex.start_le_of_no_feed hmem hlow
        intro between hge hlt hfeed
        by_cases hinside : between < removal.stop
        · obtain rfl := eq_of_charAt? hc hfeed hge (by omega)
          rw [Option.some.inj (hc.symm.trans hfeed)] at hvisible
          simp [isSpacing] at hvisible
        · obtain ⟨d, hd, hspace⟩ := hright between (by omega) (by omega)
          rw [← Option.some.inj (hfeed.symm.trans hd)] at hspace
          simp [isSpaceOrTab] at hspace
      have hcontains : line.extent.contains last = true :=
        Extent.contains_iff.mpr ⟨hsame, show last < line.stop from by
          have hlt : offset < line.stop := hhigh
          omega⟩
      simp [isSpacing_of_blank hblank hc hcontains] at hvisible
    · exact Extent.contains_iff.mpr ⟨by omega, by omega⟩

/-- A mark other than that of the line is one of another line. -/
theorem not_deleted_of_blank {offset other : Nat} {deleted : Line}
    (hline : line.extent.contains offset = true)
    (hdeleted : (marksOf text tokens removals)[other]? = some (deleted, .deleted)) :
    ¬ (deleted.start ≤ offset ∧ offset < deleted.stop) := by
  rintro ⟨hstart, hstop⟩
  obtain ⟨hlow, hhigh⟩ := Extent.contains_iff.mp hline
  have hnumber := LineIndex.lineOf_eq (getElem?_marksOf.mp hblank).1 hlow hhigh
  have hother := LineIndex.lineOf_eq (getElem?_marksOf.mp hdeleted).1 hstart hstop
  rw [← hother, hnumber, hblank] at hdeleted
  simp at hdeleted

/-- Apart from the lines that are dropped as blank, a blank line goes only as part of a removed
statement, and then as a whole. -/
theorem hits_statementCuts_iff (haligned : ∀ removal ∈ removals, Aligned text tokens removal)
    (hframed : ∀ removal ∈ removals, Framed text removal) {offset : Nat} {c : Char}
    (hc : charAt? offset text = some c) (hline : line.extent.contains offset = true) :
    Hits (statementCuts text tokens removals) offset ↔
      ∃ removal ∈ removals, removal.contains line.start = true := by
  obtain ⟨hopens, d, hd⟩ := exists_head_of_blank hblank
  obtain ⟨hlow, hhigh⟩ := Extent.contains_iff.mp hline
  constructor
  · rintro ⟨cut, hcut, hcontains⟩
    rcases List.mem_append.mp hcut with hpartial | hdeleted
    · obtain ⟨removal, hmem, rfl⟩ := List.mem_map.mp hpartial
      have hremoval := List.mem_of_mem_filter hmem
      have hremoved := (hframed removal hremoval).contains_of_partialCutOf hblank
        (haligned removal hremoval) hline hcontains
      obtain ⟨hstart, hstop⟩ :=
        (hframed removal hremoval).bounds_of_blank hblank hc hline hremoved
      refine ⟨removal, hremoval, Extent.contains_iff.mpr ⟨hstart, ?_⟩⟩
      exact Nat.lt_of_lt_of_le (Extent.contains_iff.mp hopens).2 hstop
    · obtain ⟨deleted, hlines, rfl⟩ := List.mem_map.mp hdeleted
      obtain ⟨⟨other, mark⟩, hentry, rfl⟩ := List.mem_map.mp hlines
      obtain ⟨hmem, hmark⟩ := List.mem_filter.mp hentry
      obtain ⟨position, hposition⟩ := List.mem_iff_getElem?.mp hmem
      rw [show mark = .deleted from beq_iff_eq.mp hmark] at hposition
      exact absurd (lineCut_contains hcontains) (not_deleted_of_blank hblank hline hposition)
  · rintro ⟨removal, hremoval, hcontains⟩
    obtain ⟨hstart, hstop⟩ :=
      (hframed removal hremoval).bounds_of_blank hblank hd hopens hcontains
    have hremoved : removal.contains offset = true :=
      Extent.contains_iff.mpr ⟨Nat.le_trans hstart hlow, Nat.lt_of_lt_of_le hhigh hstop⟩
    have htakes : takesLines (.ofText text) tokens removals removal = false := by
      cases htakes : takesLines (.ofText text) tokens removals removal with
      | false => rfl
      | true =>
        obtain ⟨other, hother, hotherstart, hotherstop, hnumber⟩ :=
          contains_linesOf (haligned removal hremoval) hremoved
        exact absurd ⟨hotherstart, hotherstop⟩ (not_deleted_of_blank hblank hline
          (deleted_of_takesLines hremoval htakes hother hnumber))
    obtain ⟨left, right, heq, -, -⟩ := exists_partialCutOf (haligned removal hremoval)
    refine ⟨partialCutOf text (.ofText text) removal, ?_, ?_⟩
    · apply List.mem_append_left
      apply List.mem_map_of_mem
      exact List.mem_filter.mpr ⟨hremoval, by simp [htakes]⟩
    · obtain ⟨hfirst, hlast⟩ := Extent.contains_iff.mp hremoved
      rw [heq]
      exact Extent.contains_iff.mpr ⟨by simp only; omega, by simp only; omega⟩

end Blanks

section Comparing

variable {text : List Char} {tokens : List Token} {removals : List Extent}

/-- To drop more blank lines leaves the same only when the others lie in removed statements. -/
theorem erase_eq_erase_iff_of_sublist
    (haligned : ∀ removal ∈ removals, Aligned text tokens removal)
    (hframed : ∀ removal ∈ removals, Framed text removal) {these those : List Line}
    (hsublist : these.Sublist those)
    (hblank : ∀ line ∈ those, (line, Mark.blank) ∈ marksOf text tokens removals) :
    erase (statementCuts text tokens removals ++ these.map Line.extent) 0 text =
        erase (statementCuts text tokens removals ++ those.map Line.extent) 0 text ↔
      ∀ line, (line ∈ these ↔ line ∈ those) ∨
        ∃ removal ∈ removals, removal.contains line.start = true := by
  have hlines : ∀ line ∈ those, line ∈ (LineIndex.ofText text).lines := by
    intro line hmem
    obtain ⟨number, hnumber⟩ := List.mem_iff_getElem?.mp (hblank line hmem)
    exact List.mem_of_getElem? (getElem?_marksOf.mp hnumber).1
  have hmore : ∀ offset,
      Hits (statementCuts text tokens removals ++ these.map Line.extent) offset →
        Hits (statementCuts text tokens removals ++ those.map Line.extent) offset := by
    rintro offset ⟨cut, hcut, hcontains⟩
    refine ⟨cut, ?_, hcontains⟩
    exact ((hsublist.map Line.extent).append_left _).subset hcut
  constructor
  · intro heq line
    by_contra hcase
    obtain ⟨hdiffers, hnone⟩ := not_or.mp hcase
    have hthese : line ∉ these :=
      fun hmem => hdiffers (iff_of_true hmem (hsublist.subset hmem))
    have hthose : line ∈ those := by
      by_contra hmem
      exact hdiffers (iff_of_false hthese hmem)
    obtain ⟨number, hnumber⟩ := List.mem_iff_getElem?.mp (hblank line hthose)
    obtain ⟨hopens, c, hc⟩ := exists_head_of_blank hnumber
    have hhits : Hits (statementCuts text tokens removals ++ those.map Line.extent) line.start :=
      ⟨line.extent, List.mem_append_right _ (List.mem_map_of_mem hthose), hopens⟩
    have hnot : ¬ Hits (statementCuts text tokens removals ++ these.map Line.extent)
        line.start := by
      rintro ⟨cut, hcut, hcontains⟩
      rcases List.mem_append.mp hcut with hstatement | hother
      · exact hnone ((hits_statementCuts_iff hnumber haligned hframed hc hopens).mp
          ⟨cut, hstatement, hcontains⟩)
      · obtain ⟨other, hmem, rfl⟩ := List.mem_map.mp hother
        obtain rfl := (LineIndex.tiles_lines text).eq_of_contains
          (hlines other (hsublist.subset hmem)) (hlines line hthose) hcontains hopens
        exact hthese hmem
    have hshorter := @length_erase_lt _ _ 0 text
      (fun offset _ _ => hmore (0 + offset)) line.start c hc
      (by rwa [Nat.zero_add]) (by rwa [Nat.zero_add])
    rw [heq] at hshorter
    exact Nat.lt_irrefl _ hshorter
  · intro hcovered
    apply erase_eq_erase
    intro offset c hc
    rw [Nat.zero_add]
    refine ⟨hmore offset, ?_⟩
    rintro ⟨cut, hcut, hcontains⟩
    rcases List.mem_append.mp hcut with hstatement | hline
    · exact ⟨cut, List.mem_append_left _ hstatement, hcontains⟩
    · obtain ⟨line, hthose, rfl⟩ := List.mem_map.mp hline
      by_cases hthese : line ∈ these
      · exact ⟨line.extent, List.mem_append_right _ (List.mem_map_of_mem hthese), hcontains⟩
      · obtain ⟨number, hnumber⟩ := List.mem_iff_getElem?.mp (hblank line hthose)
        obtain ⟨cut, hcut, hhits⟩ := (hits_statementCuts_iff hnumber haligned hframed hc
          hcontains).mpr ((hcovered line).resolve_left fun hsame => hthese (hsame.mpr hthose))
        exact ⟨cut, List.mem_append_left _ hcut, hhits⟩

/-- Whether a byte order mark before the text changes what is left of it: some blank line outside
the removed statements is dropped when the first line counts as blank and not when it does not, or
the other way round. -/
def markMatters (text : List Char) (tokens : List Token) (removals : List Extent) : Bool :=
  (LineIndex.ofText text).lines.any fun line =>
    ((surplus true (marksOf text tokens removals)).contains line !=
        (surplusAfterMark (marksOf text tokens removals)).contains line) &&
      removals.all fun removal => !removal.contains line.start

theorem markMatters_eq_false_iff :
    markMatters text tokens removals = false ↔
      ∀ line, (line ∈ surplus true (marksOf text tokens removals) ↔
          line ∈ surplusAfterMark (marksOf text tokens removals)) ∨
        ∃ removal ∈ removals, removal.contains line.start = true := by
  have hlines : ∀ line, (line, Mark.blank) ∈ marksOf text tokens removals →
      line ∈ (LineIndex.ofText text).lines := by
    intro line hmem
    obtain ⟨number, hnumber⟩ := List.mem_iff_getElem?.mp hmem
    exact List.mem_of_getElem? (getElem?_marksOf.mp hnumber).1
  unfold markMatters
  rw [List.any_eq_false]
  constructor
  · intro h line
    by_cases hmem : line ∈ (LineIndex.ofText text).lines
    · have hline := h line hmem
      simp only [Bool.and_eq_true, bne_iff_ne, List.contains_eq_mem, ne_eq, decide_eq_decide,
        List.all_eq_true, Bool.not_eq_true', not_and, not_forall, Bool.not_eq_false,
        exists_prop] at hline
      by_cases hsame : line ∈ surplus true (marksOf text tokens removals) ↔
          line ∈ surplusAfterMark (marksOf text tokens removals)
      · exact Or.inl hsame
      · exact Or.inr (hline hsame)
    · refine Or.inl (iff_of_false ?_ ?_)
      · exact fun hsurplus => hmem (hlines line (blank_of_mem_surplus hsurplus))
      · exact fun hsurplus => hmem (hlines line
          (List.mem_of_mem_tail (blank_of_mem_surplusAfterMark hsurplus)))
  · intro h line _ hdiffers
    simp only [Bool.and_eq_true, bne_iff_ne, List.contains_eq_mem, ne_eq, decide_eq_decide,
      List.all_eq_true, Bool.not_eq_true'] at hdiffers
    obtain ⟨hdiffers, houtside⟩ := hdiffers
    rcases h line with hsame | ⟨removal, hremoval, hcontains⟩
    · exact hdiffers hsame
    · simp [houtside removal hremoval] at hcontains

/-- Where nothing is removed no line is dropped. -/
theorem markMatters_nil (text : List Char) (tokens : List Token) :
    markMatters text tokens [] = false := by
  have hnone : ∀ {atStart : Bool} {marked : List (Line × Mark)},
      marked ⊆ marksOf text tokens [] → surplus atStart marked = [] := by
    intro atStart marked hsubset
    apply List.eq_nil_iff_forall_not_mem.mpr
    intro line hline
    obtain ⟨before, run, after, rfl, -, -, deleted, hdeleted⟩ := exists_run_of_mem_surplus hline
    obtain ⟨number, hnumber⟩ := List.mem_iff_getElem?.mp
      (hsubset (List.mem_append_right before (List.mem_append_left after hdeleted)))
    obtain ⟨removal, hremoval, -, -⟩ := exists_removal_of_deleted hnumber
    simp at hremoval
  apply markMatters_eq_false_iff.mpr
  intro line
  refine Or.inl ?_
  unfold surplusAfterMark
  split
  · rename_i first rest hmarks
    rw [hnone (List.Subset.refl _),
      hnone fun entry hentry => hmarks ▸ List.mem_cons_of_mem _ hentry]
  · exact Iff.rfl

/-- A first line that is not blank makes no difference. -/
theorem markMatters_of_not_blank
    (h : (LineIndex.ofText text).lines.head?.any Line.isBlank = false) :
    markMatters text tokens removals = false := by
  apply markMatters_eq_false_iff.mpr
  intro line
  refine Or.inl ?_
  unfold surplusAfterMark
  split
  · rename_i first rest hmarks
    have hfirst : (marksOf text tokens removals)[0]? = some (first, .blank) := by
      rw [hmarks]
      rfl
    obtain ⟨hline, hmark⟩ := getElem?_marksOf.mp hfirst
    rw [List.head?_eq_getElem?, hline, Option.any_some] at h
    simp only [markOf, h] at hmark
    split at hmark <;> simp at hmark
  · exact Iff.rfl

/-- After a byte order mark the same is left exactly when the mark does not matter. -/
theorem remove_mark_iff (hlex : Token.lex text = .ok tokens)
    (hmark : text.head? ≠ some byteOrderMark)
    (haligned : ∀ removal ∈ removals, Aligned text tokens removal)
    (hframed : ∀ removal ∈ removals, Framed text removal) :
    remove (byteOrderMark :: text) (Token.afterMark tokens)
        (removals.map (Extent.advance markSize)) = byteOrderMark :: remove text tokens removals ↔
      markMatters text tokens removals = false := by
  have hcuts : (plan text tokens removals).cuts = statementCuts text tokens removals ++
      (surplus true (marksOf text tokens removals)).map Line.extent :=
    cuts_plan text tokens removals
  rw [remove_mark hlex hmark haligned,
    remove_eq_erase text tokens removals fun _ => start_le_stop_of_mem_plan haligned, hcuts,
    List.cons_eq_cons, markMatters_eq_false_iff, and_iff_right rfl]
  rcases surplusAfterMark_sublist (marksOf text tokens removals) with hmore | hfewer
  · rw [eq_comm, erase_eq_erase_iff_of_sublist haligned hframed hmore fun line hline =>
      List.mem_of_mem_tail (blank_of_mem_surplusAfterMark hline)]
  · rw [erase_eq_erase_iff_of_sublist haligned hframed hfewer fun line hline =>
      blank_of_mem_surplus hline]
    exact forall_congr' fun line => or_congr_left iff_comm

end Comparing

end UnusedImports.Excision
