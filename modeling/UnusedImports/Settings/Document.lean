import UnusedImports.Settings.Options

/-!
Options from a configuration file. The file is a TOML document of at most four keys: two
arrays of strings and two booleans. Every other document is refused, whether it breaks the
rules of TOML or only says what no option means, so no other kind of value is read. A
position in a document is given by the characters from it on.
-/
namespace UnusedImports.Settings

inductive Value where
  | boolean (value : Bool)
  | strings (items : List String)
deriving DecidableEq

namespace Document

def isPlain (c : Char) : Bool := c == '\t' || (0x20 ≤ c.toNat && c.toNat != 0x7f)

def isBareKey (c : Char) : Bool :=
  Text.isAsciiLetter c || Text.isAsciiDigit c || c == '_' || c == '-'

def skipSpace (text : List Char) : List Char := text.dropWhile Text.isSpaceOrTab

/-- What follows white space, line ends and comments; `comment` tells whether a comment is
open. A carriage return must belong to a line end, and comments hold plain characters. -/
def skipVoid (comment : Bool) : List Char → Option (List Char)
  | [] => some []
  | c :: rest =>
    if c = '\n' then skipVoid false rest
    else if c = '\r' then
      if rest.head? = some '\n' then skipVoid false rest else none
    else if comment then
      if isPlain c then skipVoid true rest else none
    else if Text.isSpaceOrTab c then skipVoid false rest
    else if c = '#' then skipVoid true rest
    else some (c :: rest)

def hexValue? (c : Char) : Option Nat :=
  if '0' ≤ c ∧ c ≤ '9' then some (c.toNat - '0'.toNat)
  else if 'a' ≤ c ∧ c ≤ 'f' then some (c.toNat - 'a'.toNat + 10)
  else if 'A' ≤ c ∧ c ≤ 'F' then some (c.toNat - 'A'.toNat + 10)
  else none

def hexNumber (value : Nat) : Nat → List Char → Option (Nat × List Char)
  | 0, text => some (value, text)
  | count + 1, c :: rest =>
    match hexValue? c with
    | some digit => hexNumber (value * 16 + digit) count rest
    | none => none
  | _ + 1, [] => none

def charOf? (code : Nat) : Option Char :=
  if code < 0xd800 ∨ (0xdfff < code ∧ code < 0x110000) then some (Char.ofNat code) else none

/-- The character whose code point is written in `count` hexadecimal digits, and what
follows them. -/
def codePoint? (count : Nat) (text : List Char) : Option (Char × List Char) :=
  (hexNumber 0 count text).bind fun number => (charOf? number.1).map (·, number.2)

def shortEscape? (c : Char) : Option Char :=
  if c = 'b' then some '\x08'
  else if c = 't' then some '\t'
  else if c = 'n' then some '\n'
  else if c = 'f' then some '\x0c'
  else if c = 'r' then some '\r'
  else if c = '"' then some '"'
  else if c = '\\' then some '\\'
  else none

def escape? : List Char → Option (Char × List Char)
  | [] => none
  | c :: rest =>
    if c = 'u' then codePoint? 4 rest
    else if c = 'U' then codePoint? 8 rest
    else (shortEscape? c).map (·, rest)

theorem length_hexNumber (count : Nat) (text : List Char) :
    ∀ value result, hexNumber value count text = some result →
      result.2.length ≤ text.length := by
  induction count generalizing text with
  | zero =>
    intro value result h
    simp only [hexNumber, Option.some.injEq] at h
    simp [← h]
  | succ count ih =>
    intro value result h
    cases text with
    | nil => simp [hexNumber] at h
    | cons c rest =>
      simp only [hexNumber] at h
      split at h
      · have := ih rest _ _ h
        simp only [List.length_cons]
        omega
      · simp at h

theorem length_codePoint {count : Nat} {text : List Char} {result : Char × List Char}
    (h : codePoint? count text = some result) : result.2.length ≤ text.length := by
  unfold codePoint? at h
  obtain ⟨number, hnumber, hchar⟩ := Option.bind_eq_some_iff.mp h
  obtain ⟨char, _, hresult⟩ := Option.map_eq_some_iff.mp hchar
  rw [← hresult]
  exact length_hexNumber count text 0 number hnumber

theorem length_escape {text : List Char} {result : Char × List Char}
    (h : escape? text = some result) : result.2.length < text.length := by
  cases text with
  | nil => simp [escape?] at h
  | cons c rest =>
    simp only [escape?] at h
    split at h
    · exact Nat.lt_succ_of_le (length_codePoint h)
    · split at h
      · exact Nat.lt_succ_of_le (length_codePoint h)
      · obtain ⟨char, _, hresult⟩ := Option.map_eq_some_iff.mp h
        rw [← hresult]
        exact Nat.lt_succ_self _

def literalString : List Char → Option (List Char × List Char)
  | [] => none
  | c :: rest =>
    if c = '\'' then some ([], rest)
    else if isPlain c then (literalString rest).map (Prod.map (c :: ·) id)
    else none

def basicString (text : List Char) : Option (List Char × List Char) :=
  match text with
  | [] => none
  | c :: rest =>
    if c = '"' then some ([], rest)
    else if c = '\\' then
      match _h : escape? rest with
      | some (char, after) => (basicString after).map (Prod.map (char :: ·) id)
      | none => none
    else if isPlain c then (basicString rest).map (Prod.map (c :: ·) id)
    else none
termination_by text.length
decreasing_by
  · have := length_escape _h
    simp only [List.length_cons] at *
    omega
  · exact Nat.lt_succ_self _

/-- The quotes that close a string of several lines, given the run of quotes that the text
starts with: with three or more the string ends, and up to two more belong to its text. -/
def closingQuotes? (quote : Char) (text : List Char) : Option (List Char × List Char) :=
  let run := (text.takeWhile (· == quote)).length
  if run < 3 then none
  else
    let extra := min (run - 3) 2
    some (List.replicate extra quote, text.drop (extra + 3))

def longLiteralString (text : List Char) : Option (List Char × List Char) :=
  match text with
  | [] => none
  | c :: rest =>
    if c = '\'' then
      match closingQuotes? '\'' (c :: rest) with
      | some closed => some closed
      | none => (longLiteralString rest).map (Prod.map (c :: ·) id)
    else if c = '\n' ∨ isPlain c then (longLiteralString rest).map (Prod.map (c :: ·) id)
    else if c = '\r' ∧ rest.head? = some '\n' then longLiteralString rest
    else none

def skipLines : List Char → List Char
  | [] => []
  | c :: rest =>
    if Text.isSpaceOrTab c ∨ c = '\n' then skipLines rest
    else if c = '\r' ∧ rest.head? = some '\n' then skipLines rest
    else c :: rest

theorem length_skipLines (text : List Char) : (skipLines text).length ≤ text.length := by
  induction text with
  | nil => exact Nat.le_refl _
  | cons c rest ih =>
    simp only [skipLines]
    split
    · exact Nat.le_succ_of_le ih
    · split
      · exact Nat.le_succ_of_le ih
      · exact Nat.le_refl _

def continuation? (text : List Char) : Option (List Char) :=
  match skipSpace text with
  | '\n' :: _ | '\r' :: '\n' :: _ => some (skipLines text)
  | _ => none

theorem length_continuation {text after : List Char} (h : continuation? text = some after) :
    after.length ≤ text.length := by
  unfold continuation? at h
  split at h <;> simp only [Option.some.injEq, reduceCtorEq] at h <;> rw [← h] <;>
    exact length_skipLines text

/-- The text of a basic string of several lines, and what follows it. Line ends become line
feeds, and a backslash at the end of a line joins it with the next text. -/
def longBasicString (text : List Char) : Option (List Char × List Char) :=
  match text with
  | [] => none
  | c :: rest =>
    if c = '"' then
      match closingQuotes? '"' (c :: rest) with
      | some closed => some closed
      | none => (longBasicString rest).map (Prod.map (c :: ·) id)
    else if c = '\\' then
      match _hc : continuation? rest with
      | some after => longBasicString after
      | none =>
        match _he : escape? rest with
        | some (char, after) => (longBasicString after).map (Prod.map (char :: ·) id)
        | none => none
    else if c = '\n' ∨ isPlain c then (longBasicString rest).map (Prod.map (c :: ·) id)
    else if c = '\r' ∧ rest.head? = some '\n' then longBasicString rest
    else none
termination_by text.length
decreasing_by
  · exact Nat.lt_succ_self _
  · exact Nat.lt_succ_of_le (length_continuation _hc)
  · have := length_escape _he
    simp only [List.length_cons] at *
    omega
  · exact Nat.lt_succ_self _
  · exact Nat.lt_succ_self _

def skipFirstLineEnd : List Char → List Char
  | '\n' :: rest => rest
  | '\r' :: '\n' :: rest => rest
  | text => text

def string? : List Char → Option (List Char × List Char)
  | '"' :: '"' :: '"' :: rest => longBasicString (skipFirstLineEnd rest)
  | '"' :: rest => basicString rest
  | '\'' :: '\'' :: '\'' :: rest => longLiteralString (skipFirstLineEnd rest)
  | '\'' :: rest => literalString rest
  | _ => none

def key? : List Char → Option (List Char × List Char)
  | '"' :: rest => basicString rest
  | '\'' :: rest => literalString rest
  | text =>
    let bare := text.takeWhile isBareKey
    if bare.isEmpty then none else some (bare, text.drop bare.length)

def items : Nat → List Char → Option (List String × List Char)
  | 0, _ => none
  | limit + 1, text =>
    match skipVoid false text with
    | some (']' :: rest) => some ([], rest)
    | some text =>
      match string? text with
      | none => none
      | some item =>
        match skipVoid false item.2 with
        | some (',' :: rest) =>
          (items limit rest).map (Prod.map (String.ofList item.1 :: ·) id)
        | some (']' :: rest) => some ([String.ofList item.1], rest)
        | _ => none
    | none => none

def value? : List Char → Option (Value × List Char)
  | 't' :: 'r' :: 'u' :: 'e' :: rest => some (.boolean true, rest)
  | 'f' :: 'a' :: 'l' :: 's' :: 'e' :: rest => some (.boolean false, rest)
  | '[' :: rest => (items (rest.length + 1) rest).map (Prod.map .strings id)
  | _ => none

def endsLine (text : List Char) : Bool :=
  match text with
  | [] => true
  | c :: _ => c == '\n' || c == '\r' || c == '#'

def entry? (text : List Char) : Option ((String × Value) × List Char) :=
  match key? text with
  | none => none
  | some key =>
    match skipSpace key.2 with
    | '=' :: rest =>
      match value? (skipSpace rest) with
      | none => none
      | some value =>
        if endsLine (skipSpace value.2) then
          some ((String.ofList key.1, value.1), skipSpace value.2)
        else none
    | _ => none

def entries : Nat → List Char → Option (List (String × Value))
  | 0, _ => none
  | limit + 1, text =>
    match skipVoid false text with
    | none => none
    | some [] => some []
    | some text =>
      match entry? text with
      | none => none
      | some entry => (entries limit entry.2).map (entry.1 :: ·)

/-- The options after one more entry, unless the key is unknown, was set before, or has a
value of the wrong kind. -/
def assign (options : Options) (entry : String × Value) : Option Options :=
  match entry.2 with
  | .strings items =>
    if entry.1 = "preserve" ∧ options.preserve = none then
      some { options with preserve := some (.ofList items) }
    else if entry.1 = "extensions" ∧ options.extensions = none then
      some { options with extensions := some (.ofList items) }
    else none
  | .boolean value =>
    if entry.1 = "preserve-static-wildcards" ∧ options.keepStaticWildcards = none then
      some { options with keepStaticWildcards := some value }
    else if entry.1 = "preserve-annotated-imports" ∧ options.keepAnnotated = none then
      some { options with keepAnnotated := some value }
    else none

end Document

def optionsOf? (document : String) : Option Options :=
  let text := match document.toList with
    | c :: rest => if c = Text.byteOrderMark then rest else c :: rest
    | [] => []
  (Document.entries (text.length + 1) text).bind fun entries =>
    entries.foldlM Document.assign Options.unset

end UnusedImports.Settings
