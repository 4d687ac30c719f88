import UnusedImports.Settings.Options
import UnusedImports.Text.Utf8

/-!
Options from environment variables. Lists are separated by commas and booleans come in a few
spellings; a boolean that cannot be read is left unset with a warning. A value that is not text
counts as unset.
-/
namespace UnusedImports

structure Environment where
  bindings : List (String × List UInt8)

namespace Environment

def bytes? (environment : Environment) (name : String) : Option (List UInt8) :=
  environment.bindings.lookup name

def get? (environment : Environment) (name : String) : Option String :=
  (environment.bytes? name).bind fun value => (Text.decode value).toOption

end Environment

namespace Options

def splitOn (separator : Char) : List Char → List (List Char)
  | [] => [[]]
  | c :: rest =>
    if c = separator then [] :: splitOn separator rest
    else
      match splitOn separator rest with
      | piece :: pieces => (c :: piece) :: pieces
      | [] => [[c]]

def trimSpace (text : List Char) : List Char :=
  ((text.dropWhile Text.isWhiteSpace).reverse.dropWhile Text.isWhiteSpace).reverse

/-- The items of a list separated by commas. Items that are only white space do not count,
and a list without items is unset. -/
def listOf (value : String) : Option NameSet :=
  let items := ((splitOn ',' value.toList).map trimSpace).filterMap fun item =>
    if item.isEmpty then none else some (String.ofList item)
  if items.isEmpty then none else some (.ofList items)

def lowerAscii (c : Char) : Char :=
  if 'A' ≤ c ∧ c ≤ 'Z' then Char.ofNat (c.toNat + 32) else c

def boolOf? (value : String) : Option Bool :=
  let spelling := String.ofList (value.toList.map lowerAscii)
  if ["true", "1", "yes", "on"].contains spelling then some true
  else if ["false", "0", "no", "off"].contains spelling then some false
  else none

def bareExtension (extension : String) : String :=
  String.ofList (extension.toList.dropWhile (· == '.'))

def preserveVariable : String := "GROOVY_IMPORTS_PRESERVE"

def staticWildcardsVariable : String := "GROOVY_IMPORTS_PRESERVE_STATIC_WILDCARDS"

def annotatedVariable : String := "GROOVY_IMPORTS_PRESERVE_ANNOTATED_IMPORTS"

def extensionsVariable : String := "GROOVY_IMPORTS_EXTENSIONS"

def ofEnvironment (environment : Environment) : Options where
  preserve := (environment.get? preserveVariable).bind listOf
  keepStaticWildcards := (environment.get? staticWildcardsVariable).bind boolOf?
  keepAnnotated := (environment.get? annotatedVariable).bind boolOf?
  extensions := ((environment.get? extensionsVariable).bind listOf).map fun extensions =>
    .ofList (extensions.members.map bareExtension)

def booleanWarning? (environment : Environment) (name : String) : Option Log.Record :=
  match environment.get? name with
  | none => none
  | some value =>
    match boolOf? value with
    | some _ => none
    | none =>
      some ⟨.warn, "groovy_imports::config",
        "Ignoring " ++ name ++ "=" ++ Text.quoted value ++ ": expected a boolean"⟩

def environmentWarnings (environment : Environment) : List Log.Record :=
  [staticWildcardsVariable, annotatedVariable].filterMap (booleanWarning? environment)

end Options

end UnusedImports
