import UnusedImports.Proofs.Excision.Left

/-!
Lines that are joined. Each statement decides for itself whether it takes its lines with it, but a
line that goes is gone for all of them. So two lines that show something are joined exactly if a
statement that is cut out of its lines ends on a line that goes with another statement: the line
feed that ends that line goes with it, and nothing ends the line on which the statement starts.
-/
namespace UnusedImports

open UnusedImports.Text

namespace Excision

/-- A removed statement leaves its lines, and the last one of them goes with another. -/
structure Undercut (text : List Char) (tokens : List Token) (removals : List Extent)
    (removal : Extent) : Prop where
  mem : removal ∈ removals
  partly : takesLines (.ofText text) tokens removals removal = false
  deleted : OnDeletedLine text tokens removals (removal.stop - 1)

section Planning

variable {text : List Char} {tokens : List Token} {removals : List Extent}

/-- The first line feed behind an offset ends its line. -/
theorem exists_feed_of_line {line : Line} (hline : line ∈ (LineIndex.ofText text).lines)
    {offset feed : Nat} (hstart : line.start ≤ offset) (hstop : offset < line.stop)
    (hle : offset ≤ feed) (hfeed : charAt? feed text = some '\n') :
    ∃ first, offset ≤ first ∧ first ≤ feed ∧ first < line.stop ∧
      charAt? first text = some '\n' := by
  classical
  have hended : ∃ first, offset ≤ first ∧ charAt? first text = some '\n' := ⟨feed, hle, hfeed⟩
  obtain ⟨hafter, hat⟩ := Nat.find_spec hended
  refine ⟨Nat.find hended, hafter, Nat.find_min' hended ⟨hle, hfeed⟩, ?_, hat⟩
  obtain ⟨other, hother, hotherstart, hotherstop⟩ := LineIndex.exists_line (lt_of_charAt? hat)
  have hmem := List.mem_of_getElem? hother
  have hsame := LineIndex.start_le_of_no_feed hmem hotherstart fun between hge hlt hbetween =>
    Nat.find_min hended hlt ⟨hge, hbetween⟩
  obtain rfl : other = line := (LineIndex.tiles_lines text).eq_of_contains hmem hline
    (Extent.contains_iff.mpr ⟨hsame, show offset < other.stop by omega⟩)
    (Extent.contains_iff.mpr ⟨hstart, hstop⟩)
  exact hotherstop

section Losing

variable (haligned : ∀ removal ∈ removals, Aligned text tokens removal)
  (hframed : ∀ removal ∈ removals, Framed text removal)
  {anchor feed : Nat} (hanchor : ∀ removal ∈ removals, removal.contains anchor = false)
  (hfeed : charAt? feed text = some '\n')
  (hkept : ∀ removal ∈ removals, removal.contains feed = false)
  (hlost : OnOneLine text (plan text tokens removals).cuts anchor (feed + 1))

include haligned hframed hanchor hfeed hkept hlost

/-- A line feed that is cut although its line stays is part of a statement that is cut out of its
lines. If the line on which that statement ends stays as well, its line feed is part of another
one, and so on until a statement ends on a line that goes. -/
theorem exists_undercut {shown number : Nat} {c : Char} {line : Line} (hge : anchor ≤ shown)
    (hlt : shown < feed) (hc : charAt? shown text = some c) (hvisible : isSpacing c = false)
    (hsolid : (marksOf text tokens removals)[number]? = some (line, .solid))
    (hstart : line.start ≤ shown) (hstop : shown < line.stop) :
    ∃ removal, Undercut text tokens removals removal ∧ anchor < removal.start ∧
      removal.stop ≤ feed := by
  induction hcount : feed - shown using Nat.strongRecOn generalizing shown number c line with
  | ind count ih =>
    have hline := List.mem_of_getElem? (getElem?_marksOf.mp hsolid).1
    obtain ⟨ended, hended, hendedle, hendedstop, hat⟩ :=
      exists_feed_of_line hline hstart hstop (Nat.le_of_lt hlt) hfeed
    obtain ⟨removal, hremoval, htakes, hinside⟩ := exists_removal_of_solid haligned hsolid
      (show line.start ≤ ended by omega) hendedstop hat (by decide)
      (hlost ended (by omega) (by omega) hat)
    obtain ⟨hlow, hhigh⟩ := Extent.contains_iff.mp hinside
    have hafter : anchor < removal.start := by
      have hnot := Extent.contains_eq_false_iff.mp (hanchor removal hremoval)
      omega
    have hbefore : removal.stop ≤ feed := by
      have hnot := Extent.contains_eq_false_iff.mp (hkept removal hremoval)
      omega
    -- The statement goes on behind the line feed, so it ends with something visible later.
    obtain ⟨last, d, hd, hshown, hlater, hend⟩ :=
      (hframed removal hremoval).exists_last_after hat hhigh
    have hpositive := d.utf8Size_pos
    obtain ⟨later, next, mark, hmark, hnext, hnextstart, hnextstop⟩ :=
      exists_marked_line tokens removals hd
    cases mark with
    | solid =>
      exact ih (feed - last) (by omega) (by omega) (by omega) hd hshown hmark hnextstart hnextstop
        rfl
    | blank =>
      have hspacing := isSpacing_of_blank hmark hd (Extent.contains_iff.mpr ⟨hnextstart, hnextstop⟩)
      simp [hshown] at hspacing
    | deleted =>
      have hnextend : last + d.utf8Size ≤ next.stop :=
        (LineIndex.stands_line hnext).splitsAt_stop.add_utf8Size_le hd hnextstop
      refine ⟨removal, ⟨hremoval, htakes, ?_⟩, hafter, hbefore⟩
      exact (onDeletedLine_iff hmark (by omega) (by omega)).mpr rfl

end Losing

end Planning

end Excision

namespace Source

open Excision

variable {source : Source} {text : List Char} {chosen : List ImportStatement}

/-- Between two tokens that survive, a line feed outside the removed statements is lost together
with all others only around a statement that ends on a line that goes with another. -/
theorem Selects.exists_undercut_between (h : source.Selects text chosen) {position between : Nat}
    {token lineEnd : Token} {stop : Nat}
    (hsurvives : Survives source.tokens (source.bytesOfImports chosen) position token)
    (hlineEnd : source.tokens[between]? = some lineEnd) (hnewline : lineEnd.kind = .newline)
    (hstays : isRemoved (source.bytesOfImports chosen) lineEnd = false)
    (hlt : position < between) (hstop : lineEnd.stop ≤ stop)
    (hlost : OnOneLine text (source.cutsFor text chosen) token.stop stop) :
    ∃ removal, Undercut text source.tokens (source.bytesOfImports chosen) removal ∧
      token.stop ≤ removal.start ∧ removal.stop ≤ stop := by
  obtain ⟨anchor, hholds, hanchor, hnext⟩ := h.exists_anchor hsurvives
  have hbefore := Token.stop_le_start h.lexed hsurvives.token_eq hlineEnd hlt
  obtain ⟨feed, hfeedstart, hfeedstop, hfeed⟩ : ∃ feed, lineEnd.start ≤ feed ∧
      feed < lineEnd.stop ∧ charAt? feed text = some '\n' := by
    have hfits := Token.fits_token h.lexed hlineEnd
    unfold Token.Fits at hfits
    simp only [hnewline] at hfits
    have hlast : lineEnd.text.toList.getLast? = some '\n' := by
      rcases hfits with hfits | hfits <;> simp [hfits]
    obtain ⟨feed, hstart, hend, hat⟩ :=
      (Token.stands_token h.lexed (List.mem_of_getElem? hlineEnd)).getLast hlast
    have hend : feed + 1 = lineEnd.stop := hend
    exact ⟨feed, hstart, by omega, hat⟩
  have hkept : ∀ removal ∈ source.bytesOfImports chosen, removal.contains feed = false := by
    intro removal hremoval
    cases hcontains : removal.contains feed with
    | false => rfl
    | true =>
      obtain ⟨hlow, hhigh⟩ := Extent.contains_iff.mp hcontains
      have hapart := (h.aligned_bytes removal hremoval).apart lineEnd
        (List.mem_of_getElem? hlineEnd) (by omega)
      rcases hapart with ⟨hstart, hend⟩ | hapart | hapart
      · simp [isRemoved_of_bounds hremoval hstart hend] at hstays
      · omega
      · omega
  obtain ⟨c, hc, hvisible⟩ := hholds.visible
  obtain ⟨number, line, hline, hlinestart, hlinestop, hsolid⟩ := hholds.exists_solid h.lexed
  have hafter : anchor < feed := by
    by_contra hle
    obtain rfl : anchor = feed := by omega
    exact ne_feed_of_visible hc hvisible hfeed
  have hlost' : OnOneLine text (source.cutsFor text chosen) anchor (feed + 1) := by
    intro other hge hlt hat
    by_cases heq : anchor = other
    · subst heq
      exact absurd hat (ne_feed_of_visible hc hvisible)
    · exact hlost other (hnext other _ hat (by omega)) (by omega) hat
  obtain ⟨removal, hundercut, hstart, hend⟩ := exists_undercut h.aligned_bytes h.framed
    hholds.stays hfeed hkept hlost' (Nat.le_refl _) hafter hc hvisible hsolid hlinestart hlinestop
  obtain ⟨d, hd⟩ := (h.aligned_bytes removal hundercut.mem).starts
  exact ⟨removal, hundercut, hnext _ d hd hstart, by omega⟩

/-- Removing imports leaves the tokens that survive, with what is left between them. No line feed
is left between two of them although a line end outside the removed imports stands there exactly
if an import between them is cut out of its lines while the last of these lines goes with another
import, and the line feeds before it and behind it are lost as well. -/
theorem joined_remove_iff {text : List Char} {source : Source} (h : read text = .ok source)
    {chosen : List ImportStatement}
    (hchosen : ∀ statement ∈ chosen, statement ∈ source.outline.imports)
    {first between last : Nat} {token lineEnd other : Token}
    (hfirst : Survives source.tokens (source.bytesOfImports chosen) first token)
    (hlast : Survives source.tokens (source.bytesOfImports chosen) last other)
    (hlineEnd : source.tokens[between]? = some lineEnd) (hnewline : lineEnd.kind = .newline)
    (hstays : isRemoved (source.bytesOfImports chosen) lineEnd = false)
    (hbefore : first < between) (hafter : between < last) :
    remove text source.tokens (source.bytesOfImports chosen) =
        leftOf text (source.cutsFor text chosen) 0 token.start ++ (token.text.toList ++
          (leftOf text (source.cutsFor text chosen) token.stop other.start ++
            (other.text.toList ++
              leftOf text (source.cutsFor text chosen) other.stop (byteLength text)))) ∧
      ('\n' ∉ leftOf text (source.cutsFor text chosen) token.stop other.start ↔
        ∃ removal, Undercut text source.tokens (source.bytesOfImports chosen) removal ∧
          token.stop ≤ removal.start ∧ removal.stop ≤ other.start ∧
          OnOneLine text (source.cutsFor text chosen) token.stop removal.start ∧
          OnOneLine text (source.cutsFor text chosen) removal.stop other.start) := by
  obtain ⟨-, -, hlex, houtline⟩ := of_read h
  have hselects : source.Selects text chosen := ⟨hlex, houtline, hchosen⟩
  have hstands := Token.stands_token hlex (List.mem_of_getElem? hfirst.token_eq)
  have hstands' := Token.stands_token hlex (List.mem_of_getElem? hlast.token_eq)
  have hle := Token.stop_le_start hlex hfirst.token_eq hlast.token_eq (by omega)
  have hsplit : SplitsAt text token.stop := hstands.splitsAt_stop
  have hend : other.stop ≤ byteLength text := hstands'.le_byteLength
  refine ⟨?_, ?_⟩
  · rw [hselects.remove_eq_leftOf, hselects.leftOf_around hfirst (splitsAt_zero text)
      (Nat.zero_le _) hstands.le_byteLength, hselects.leftOf_around hlast hsplit hle hend]
  · rw [mem_leftOf hsplit]
    constructor
    · intro hnone
      have hlost : OnOneLine text (source.cutsFor text chosen) token.stop other.start := by
        intro feed hge hlt hat
        by_contra hleft
        exact hnone ⟨feed, hge, hlt, hat, hleft⟩
      obtain ⟨removal, hundercut, hstart, hstop⟩ := hselects.exists_undercut_between hfirst hlineEnd
        hnewline hstays hbefore (Token.stop_le_start hlex hlineEnd hlast.token_eq hafter) hlost
      have hforward := (hselects.aligned_bytes removal hundercut.mem).start_lt_stop
      exact ⟨removal, hundercut, hstart, hstop, fun feed hge hlt => hlost feed hge (by omega),
        fun feed hge hlt => hlost feed (by omega) hlt⟩
    · intro hcase hmem
      obtain ⟨removal, hundercut, hstart, hstop, hlow, hhigh⟩ := hcase
      obtain ⟨feed, hge, hlt, hat, hleft⟩ := hmem
      apply hleft
      by_cases hbeforestart : feed < removal.start
      · exact hlow feed hge hbeforestart hat
      · by_cases hinside : feed < removal.stop
        · exact hits_of_removed hselects.aligned_bytes hselects.not_mark hundercut.mem
            (Extent.contains_iff.mpr ⟨by omega, hinside⟩)
        · exact hhigh feed (by omega) hlt hat

/-- The statement before the import and the one behind it stay on lines of their own. -/
theorem joined_remove_iff_apart :
    ∃ text source token lineEnd other, text = "x; @A\nimport a.B\ny\n".toList ∧
      read text = .ok source ∧
      token = ⟨.operator, ";", 1, 0⟩ ∧ lineEnd = ⟨.newline, "\n", 16, 0⟩ ∧
      other = ⟨.identifier, "y", 17, 0⟩ ∧ source.tokens[11]? = some lineEnd ∧
      Survives source.tokens (source.bytesOfImports source.outline.imports) 1 token ∧
      Survives source.tokens (source.bytesOfImports source.outline.imports) 12 other ∧
      ('\n' ∉ leftOf text (source.cutsFor text source.outline.imports) token.stop other.start ↔
        ∃ removal,
          Undercut text source.tokens (source.bytesOfImports source.outline.imports) removal ∧
          token.stop ≤ removal.start ∧ removal.stop ≤ other.start ∧
          OnOneLine text (source.cutsFor text source.outline.imports) token.stop removal.start ∧
          OnOneLine text (source.cutsFor text source.outline.imports) removal.stop
            other.start) := by
  have hrun : ((read "x; @A\nimport a.B\ny\n".toList).toOption.any fun source =>
      source.tokens[11]? = some ⟨.newline, "\n", 16, 0⟩ ∧
        isRemoved (source.bytesOfImports source.outline.imports) ⟨.newline, "\n", 16, 0⟩ = false ∧
        Survives source.tokens (source.bytesOfImports source.outline.imports) 1
          ⟨.operator, ";", 1, 0⟩ ∧
        Survives source.tokens (source.bytesOfImports source.outline.imports) 12
          ⟨.identifier, "y", 17, 0⟩) = true := by decide +kernel
  generalize "x; @A\nimport a.B\ny\n".toList = text at hrun ⊢
  cases hread : read text with
  | error failure => simp [hread, Except.toOption] at hrun
  | ok source =>
    simp only [hread, Except.toOption, Option.any_some, decide_eq_true_eq] at hrun
    obtain ⟨hlineEnd, hstays, hfirst, hlast⟩ := hrun
    refine ⟨text, source, _, _, _, rfl, hread, rfl, rfl, rfl, hlineEnd, hfirst, hlast, ?_⟩
    exact (joined_remove_iff hread (fun _ hmem => hmem) hfirst hlast hlineEnd rfl hstays (by decide)
      (by decide)).2

/-- The line feed behind the second import goes with its line, and the first one reaches from
there to the line before. -/
theorem exists_joined_remove :
    ∃ text source token lineEnd other, text = "x; @A\nimport a.B; import c.D\ny\n".toList ∧
      read text = .ok source ∧
      token = ⟨.operator, ";", 1, 0⟩ ∧ lineEnd = ⟨.newline, "\n", 28, 0⟩ ∧
      other = ⟨.identifier, "y", 29, 0⟩ ∧ source.tokens[18]? = some lineEnd ∧
      isRemoved (source.bytesOfImports source.outline.imports) lineEnd = false ∧
      Survives source.tokens (source.bytesOfImports source.outline.imports) 1 token ∧
      Survives source.tokens (source.bytesOfImports source.outline.imports) 19 other ∧
      remove text source.tokens (source.bytesOfImports source.outline.imports) =
        "x; y\n".toList ∧
      '\n' ∉ leftOf text (source.cutsFor text source.outline.imports) token.stop other.start := by
  have hrun : ((read "x; @A\nimport a.B; import c.D\ny\n".toList).toOption.any fun source =>
      source.tokens[18]? = some ⟨.newline, "\n", 28, 0⟩ ∧
        isRemoved (source.bytesOfImports source.outline.imports) ⟨.newline, "\n", 28, 0⟩ = false ∧
        Survives source.tokens (source.bytesOfImports source.outline.imports) 1
          ⟨.operator, ";", 1, 0⟩ ∧
        Survives source.tokens (source.bytesOfImports source.outline.imports) 19
          ⟨.identifier, "y", 29, 0⟩ ∧
        leftOf "x; @A\nimport a.B; import c.D\ny\n".toList
          (source.cutsFor "x; @A\nimport a.B; import c.D\ny\n".toList source.outline.imports) 0
          (byteLength "x; @A\nimport a.B; import c.D\ny\n".toList) = "x; y\n".toList ∧
        '\n' ∉ leftOf "x; @A\nimport a.B; import c.D\ny\n".toList
          (source.cutsFor "x; @A\nimport a.B; import c.D\ny\n".toList source.outline.imports)
          (Token.stop ⟨.operator, ";", 1, 0⟩) 29) = true := by decide +kernel
  generalize "x; @A\nimport a.B; import c.D\ny\n".toList = text at hrun ⊢
  cases hread : read text with
  | error failure => simp [hread, Except.toOption] at hrun
  | ok source =>
    simp only [hread, Except.toOption, Option.any_some, decide_eq_true_eq] at hrun
    obtain ⟨hlineEnd, hstays, hfirst, hlast, hleft, hlost⟩ := hrun
    obtain ⟨-, -, hlex, houtline⟩ := of_read hread
    have hselects : source.Selects text source.outline.imports :=
      ⟨hlex, houtline, fun _ hmem => hmem⟩
    exact ⟨text, source, _, _, _, rfl, hread, rfl, rfl, rfl, hlineEnd, hstays, hfirst, hlast,
      hselects.remove_eq_leftOf.trans hleft, hlost⟩

end Source

end UnusedImports
