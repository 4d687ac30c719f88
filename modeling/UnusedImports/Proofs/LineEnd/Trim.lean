import UnusedImports.Proofs.LineEnd.Plan
import UnusedImports.Proofs.Stability

/-!
Trimming a text with carriage returns. It removes the imports at the same positions and leaves
the same text, with carriage returns. The one exception is a text in which a backslash takes a
line feed into a literal that does not span lines: with carriage returns it cannot be read, so
nothing is removed from it.
-/
namespace UnusedImports

def crlf (text : String) : String := String.ofList (Text.withReturns text.toList)

@[simp]
theorem toList_crlf (text : String) : (crlf text).toList = Text.withReturns text.toList :=
  String.toList_ofList

namespace Source

/-- Unless a backslash takes a line feed into a literal that does not span lines, a text can be
read with carriage returns whenever it can be read without, and what is read is the same but for
the carriage returns. -/
theorem read_withReturns {text : List Char} (hreturn : '\r' ∉ text)
    (hfolds : Token.foldsLine text = false) :
    (∃ failure another, read text = .error failure ∧
      read (Text.withReturns text) = .error another) ∨
    ∃ source other, read text = .ok source ∧ read (Text.withReturns text) = .ok other ∧
      source.Alike other ∧ other.tokens = source.tokens.map (Token.shift text) := by
  have htogether := Token.together_lex hreturn hfolds
  generalize hlex : Token.lex text = outcome at htogether
  generalize hother : Token.lex (Text.withReturns text) = another at htogether
  cases htogether with
  | error fault other =>
    obtain ⟨failure, hfailure⟩ := exists_failure_of_fault hlex
    obtain ⟨another, hanother⟩ := exists_failure_of_fault hother
    exact Or.inl ⟨failure, another, hfailure, hanother⟩
  | @ok tokens others hmirrors =>
    have halike : List.Forall₂ Token.Alike tokens others := by
      have hsound := (Token.covers_lex hlex).2.1
      exact List.forall₂_reverse_iff.mp (hsound.alike (List.forall₂_reverse_iff.mpr hmirrors))
    rw [read_of_lex hlex, read_of_lex hother, Token.symbols_of_alike halike]
    cases Outline.ofSymbols (tokens.map Token.symbol) with
    | error fault => exact Or.inl ⟨_, _, rfl, rfl⟩
    | ok outline =>
      exact Or.inr ⟨_, _, rfl, rfl, alike_of_tokens halike outline,
        Token.eq_map_shift hlex hother hmirrors⟩

end Source

namespace Analysis

/-- What is left of a source with carriage returns is what is left of it, with carriage
returns. -/
theorem trimmedText_withReturns {text : List Char} (hreturn : '\r' ∉ text)
    {source other : Source} (hread : Source.read text = .ok source)
    (hother : Source.read (Text.withReturns text) = .ok other) (halike : source.Alike other)
    (htokens : other.tokens = source.tokens.map (Token.shift text)) (policy : Policy) :
    (ofSource policy other).trimmedText =
      Text.withReturns (ofSource policy source).trimmedText := by
  obtain ⟨htext, -, hlex, houtline⟩ := Source.of_read hread
  obtain ⟨hreturned, -, -, -⟩ := Source.of_read hother
  obtain ⟨chosen, hchosen, hbytes⟩ := exists_chosen policy source
  have hselects : source.Selects text chosen := ⟨hlex, houtline, hchosen⟩
  have hmoved : (ofSource policy other).unused.map (fun declaration => declaration.span.extent) =
      ((ofSource policy source).unused.map fun declaration => declaration.span.extent).map
        (Extent.shift text) := by
    rw [extents_unused, extents_unused, (alike_ofSource policy halike).unusedPositions,
      List.map_filterMap, halike.outline, htokens]
    congr 1
    funext position
    rw [Option.map_map]
    congr 1
    funext statement
    exact Token.bytesOf_shift hlex statement.tokens
  unfold trimmedText
  rw [hmoved, hbytes]
  show Excision.remove other.text other.tokens _ =
    Text.withReturns (Excision.remove source.text source.tokens _)
  rw [hreturned, htext, htokens]
  exact Excision.remove_withReturns hlex hreturn hselects.aligned_bytes

end Analysis

/-- Unless a backslash takes a line feed into a literal that does not span lines, trimming does
not depend on how line ends are written. -/
theorem trim_crlf_of_not_folds {text : String} (hreturn : '\r' ∉ text.toList)
    (hfolds : Token.foldsLine text.toList = false) (policy : Policy) :
    (trim policy (crlf text)).code = crlf (trim policy text).code ∧
      removedPositions policy (crlf text) = removedPositions policy text := by
  rcases Source.read_withReturns hreturn hfolds with
    ⟨failure, another, hread, hother⟩ | ⟨source, other, hread, hother, halike, htokens⟩
  · rw [← toList_crlf] at hother
    obtain ⟨hcode, -, hpositions⟩ := trim_of_failure policy hread
    obtain ⟨hrecode, -, hrepositions⟩ := trim_of_failure policy hother
    rw [hcode, hrecode, hpositions, hrepositions]
    exact ⟨rfl, rfl⟩
  · have hsame := (Analysis.alike_ofSource policy halike).unusedPositions
    have htrimmed := Analysis.trimmedText_withReturns hreturn hread hother halike htokens policy
    rw [← toList_crlf] at hother
    obtain ⟨hcode, -, hpositions⟩ := trim_of_read policy hread
    obtain ⟨hrecode, -, hrepositions⟩ := trim_of_read policy hother
    rw [hcode, hrecode, hpositions, hrepositions, hsame]
    refine ⟨?_, rfl⟩
    split
    · rfl
    · rw [htrimmed, crlf, String.toList_ofList]

/-- Trimming a text without carriage returns and trimming it with a carriage return before each
line feed come to the same: what is left is the same but for the carriage returns, and the imports
at the same positions are removed. This fails exactly for a text from which something is removed
and in which a backslash takes a line feed into a literal that does not span lines: with the
carriage return in between the literal is broken off, the text cannot be read and is left as it
is. -/
theorem trim_crlf_iff (policy : Policy) {text : String} (hreturn : '\r' ∉ text.toList) :
    ((trim policy (crlf text)).code = crlf (trim policy text).code ∧
      removedPositions policy (crlf text) = removedPositions policy text) ↔
    (Token.foldsLine text.toList = true → (trim policy text).removed = []) := by
  cases hfolds : Token.foldsLine text.toList with
  | false =>
    exact iff_of_true (trim_crlf_of_not_folds hreturn hfolds policy) (by simp)
  | true =>
    obtain ⟨fault, hfault⟩ := Token.exists_fault_lex hreturn hfolds
    rw [← toList_crlf] at hfault
    obtain ⟨failure, hfailure⟩ := Source.exists_failure_of_fault hfault
    obtain ⟨hcode, -, hpositions⟩ := trim_of_failure policy hfailure
    rw [hcode, hpositions, ← removedPositions_eq_nil_iff]
    constructor
    · intro hsame _
      exact hsame.2.symm
    · intro hnone
      have hremoved := hnone rfl
      rw [hremoved, code_trim_of_removed_nil policy
        ((removedPositions_eq_nil_iff policy).mp hremoved)]
      exact ⟨rfl, rfl⟩

/-- The removed import takes a comment and a blank line with it, and a backslash stands before a
line end, but in a literal that spans lines. -/
theorem trim_crlf_iff_spanning :
    '\r' ∉ "import a.B\n\nimport c.D // D\n\nB x = '''D\\\n'''\n".toList ∧
      Token.foldsLine "import a.B\n\nimport c.D // D\n\nB x = '''D\\\n'''\n".toList = false ∧
      removedPositions ⟨[], true, true⟩
        "import a.B\n\nimport c.D // D\n\nB x = '''D\\\n'''\n" = [1] ∧
      (trim ⟨[], true, true⟩
          (crlf "import a.B\n\nimport c.D // D\n\nB x = '''D\\\n'''\n")).code =
        crlf (trim ⟨[], true, true⟩
          "import a.B\n\nimport c.D // D\n\nB x = '''D\\\n'''\n").code ∧
      removedPositions ⟨[], true, true⟩
        (crlf "import a.B\n\nimport c.D // D\n\nB x = '''D\\\n'''\n") = [1] := by
  have hreturn : '\r' ∉ "import a.B\n\nimport c.D // D\n\nB x = '''D\\\n'''\n".toList := by
    decide +kernel
  have hfolds : Token.foldsLine "import a.B\n\nimport c.D // D\n\nB x = '''D\\\n'''\n".toList =
      false := by decide +kernel
  have hpositions : removedPositions ⟨[], true, true⟩
      "import a.B\n\nimport c.D // D\n\nB x = '''D\\\n'''\n" = [1] := by decide +kernel
  generalize "import a.B\n\nimport c.D // D\n\nB x = '''D\\\n'''\n" = text at *
  obtain ⟨hcode, hsame⟩ := (trim_crlf_iff ⟨[], true, true⟩ hreturn).mpr (by simp [hfolds])
  exact ⟨hreturn, hfolds, hpositions, hcode, hsame.trans hpositions⟩

/-- The unused import stays when the literal is broken off at the carriage return. -/
theorem trim_crlf_ne :
    '\r' ∉ "import a.B\ndef x = 'a\\\nb'\n".toList ∧
      (trim ⟨[], true, true⟩ (crlf "import a.B\ndef x = 'a\\\nb'\n")).code ≠
        crlf (trim ⟨[], true, true⟩ "import a.B\ndef x = 'a\\\nb'\n").code ∧
      removedPositions ⟨[], true, true⟩ (crlf "import a.B\ndef x = 'a\\\nb'\n") ≠
        removedPositions ⟨[], true, true⟩ "import a.B\ndef x = 'a\\\nb'\n" := by
  decide +kernel

end UnusedImports
