import UnusedImports.Excision
import UnusedImports.Settlement
import UnusedImports.Source

/-!
Trimming a source: the imports that nothing refers to are cut out of the text. A source that
cannot be analysed is left as it is, with a note that says why.
-/
namespace UnusedImports

structure Analysis where
  source : Source
  /-- The imports, in order. -/
  declarations : List ImportDeclaration
  /-- The references of the body. -/
  bodyReferences : List Reference
  /-- The verdicts on the imports. -/
  settlement : Settlement

namespace Analysis

def ofSource (policy : Policy) (source : Source) : Analysis :=
  let declarations := source.declarations
  let bodyReferences := source.bodyReferences
  ⟨source, declarations, bodyReferences,
    Settlement.settle policy declarations bodyReferences source.annotationReferences⟩

def unused (analysis : Analysis) : List ImportDeclaration :=
  Decision.unused analysis.settlement.decisions

def plan (analysis : Analysis) : Excision.Plan :=
  Excision.plan analysis.source.text analysis.source.tokens
    (analysis.unused.map fun declaration => declaration.span.extent)

def trimmedText (analysis : Analysis) : List Char :=
  Excision.remove analysis.source.text analysis.source.tokens
    (analysis.unused.map fun declaration => declaration.span.extent)

end Analysis

def analyze (policy : Policy) (source : String) : Except Failure Analysis :=
  (Source.read source.toList).map (Analysis.ofSource policy)

structure Diagnostic where
  message : String
  span : Option Span
deriving DecidableEq

structure Trimmed where
  code : String
  /-- The imports that were removed, in order. -/
  removed : List ImportDeclaration
  hasChanges : Bool
  diagnostics : List Diagnostic
deriving DecidableEq

namespace Trimmed

def unchanged (source : String) (diagnostics : List Diagnostic) : Trimmed :=
  ⟨source, [], false, diagnostics⟩

def ofAnalysis (source : String) : Except Failure Analysis → Trimmed
  | .error failure => unchanged source [⟨failure.message, failure.span?⟩]
  | .ok analysis =>
    if analysis.unused.isEmpty then unchanged source []
    else
      let code := String.ofList analysis.trimmedText
      ⟨code, analysis.unused, code != source, []⟩

end Trimmed

def trim (policy : Policy) (source : String) : Trimmed :=
  Trimmed.ofAnalysis source (analyze policy source)

def trimBytes (policy : Policy) (bytes : List UInt8) : Except Failure Trimmed :=
  match Text.decode bytes with
  | .ok source => .ok (trim policy source)
  | .error fault => .error (.encoding fault)

def transform (source : String) : String := (trim ⟨[], true, true⟩ source).code

/-- The name by which a formatter refers to this step. -/
def stepName : String := "removeUnusedImports"

def pipeline (source : String) : List Policy → List String
  | [] => []
  | policy :: rest =>
    let code := (trim policy source).code
    code :: pipeline code rest

end UnusedImports
