import UnusedImports.Outline.Nesting
import UnusedImports.Text.Utf8

/-!
Why a source cannot be analysed: it is not text, it cannot be cut into tokens, or it has no
outline. All but the first have a place.
-/
namespace UnusedImports

inductive Failure where
  | lex (cause : LexCause) (span : Span)
  | parse (cause : ParseCause) (span : Span)
  | encoding (fault : Text.Utf8Fault)
deriving DecidableEq

namespace Failure

def message : Failure → String
  | .lex cause span =>
    "failed to tokenize source: " ++ cause.message ++ " at " ++ span.position
  | .parse cause span =>
    "failed to parse source: " ++ cause.message ++ " at " ++ span.position
  | .encoding fault => "source is not valid UTF-8: " ++ fault.message

def span? : Failure → Option Span
  | .lex _ span => some span
  | .parse _ span => some span
  | .encoding _ => none

end Failure

end UnusedImports
