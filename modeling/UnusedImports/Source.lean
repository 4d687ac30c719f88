import UnusedImports.Failure
import UnusedImports.Import.Declaration
import UnusedImports.Reference
import UnusedImports.Token.Lexer

/-!
A source that has been read: its text, its lines, its tokens and its outline, with the
questions that the analysis asks of it.
-/
namespace UnusedImports

structure Source where
  text : List Char
  index : LineIndex
  tokens : List Token
  outline : Outline

namespace Source

def tokenize (text : List Char) : Except Failure (List Token) :=
  match Token.lex text with
  | .ok tokens => .ok tokens
  | .error fault =>
    .error (.lex fault.cause ((LineIndex.ofText text).span fault.extent))

def faultExtent (text : List Char) (tokens : List Token) (fault : ParseFault) : Extent :=
  match tokens[fault.position]? with
  | some token => token.extent
  | none => ⟨Text.byteLength text, Text.byteLength text⟩

def read (text : List Char) : Except Failure Source :=
  match tokenize text with
  | .error failure => .error failure
  | .ok tokens =>
    let index := LineIndex.ofText text
    match Outline.ofSymbols (tokens.map Token.symbol) with
    | .ok outline => .ok ⟨text, index, tokens, outline⟩
    | .error fault =>
      .error (.parse fault.cause (index.span (faultExtent text tokens fault)))

def locate (source : Source) (extent : Extent) : Span := source.index.span extent

def locateTokens (source : Source) (extent : Extent) : Span :=
  source.locate (Token.bytesOf source.tokens extent)

def declarations (source : Source) : List ImportDeclaration :=
  source.outline.imports.map (ImportDeclaration.ofStatement source.locateTokens)

def references (source : Source) : List (Option Reference) :=
  Reference.ofTokens source.locate source.tokens

def bodyReferences (source : Source) : List Reference :=
  (Outline.partsOf source.outline.body).flatMap (Reference.within source.references)

def annotationReferences (source : Source) : List (List Reference) :=
  source.outline.imports.map fun statement =>
    match statement.annotations with
    | some extent => Reference.within source.references extent
    | none => []

end Source

end UnusedImports
