import UnusedImports.Log
import UnusedImports.Settings.NameSet
import UnusedImports.Text.Quoted
import UnusedImports.Verdict

/-!
Options and settings. Options come in layers, each of which may leave any key unset. Of two
layers the higher one decides, except that the paths to preserve add up. Settings are what is
left when every unset key has been given its default.
-/
namespace UnusedImports

structure Options where
  preserve : Option NameSet
  keepStaticWildcards : Option Bool
  keepAnnotated : Option Bool
  extensions : Option NameSet
deriving DecidableEq

structure Settings where
  preserve : NameSet
  keepStaticWildcards : Bool
  keepAnnotated : Bool
  extensions : NameSet
deriving DecidableEq

namespace Options

def unset : Options := ⟨none, none, none, none⟩

/-- The paths to preserve of two layers, of which either may leave them unset. -/
def mergePreserve (higher lower : Option NameSet) : Option NameSet :=
  match higher, lower with
  | some high, some low => some (high.union low)
  | _, _ => higher.or lower

def combine (higher lower : Options) : Options where
  preserve := mergePreserve higher.preserve lower.preserve
  keepStaticWildcards := higher.keepStaticWildcards.or lower.keepStaticWildcards
  keepAnnotated := higher.keepAnnotated.or lower.keepAnnotated
  extensions := higher.extensions.or lower.extensions

end Options

namespace Settings

def defaultExtensions : NameSet := .ofList ["groovy", "gradle", "gvy", "gy", "gsh"]

def ofOptions (options : Options) : Settings where
  preserve := options.preserve.getD .empty
  keepStaticWildcards := options.keepStaticWildcards.getD true
  keepAnnotated := options.keepAnnotated.getD true
  extensions := options.extensions.getD defaultExtensions

def preserving (settings : Settings) (paths : List String) : Settings :=
  { settings with preserve := settings.preserve.union (.ofList paths) }

def policy (settings : Settings) : Policy :=
  ⟨settings.preserve.members, settings.keepStaticWildcards, settings.keepAnnotated⟩

def describeSet (names : NameSet) : String :=
  "\x7b" ++ String.intercalate ", " (names.members.map Text.quoted) ++ "\x7d"

def describe (settings : Settings) : String :=
  "Config \x7b preserve: " ++ describeSet settings.preserve ++
    ", preserve_static_wildcards: " ++ toString settings.keepStaticWildcards ++
    ", preserve_annotated_imports: " ++ toString settings.keepAnnotated ++
    ", extensions: " ++ describeSet settings.extensions ++ " \x7d"

end Settings

end UnusedImports
