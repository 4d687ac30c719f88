import UnusedImports.Outline.Basic

/-!
Import declarations: what an import statement brings into the file, by kind, path and the
name it binds. Two statements of the same text are two declarations, told apart by where
they stand.
-/
namespace UnusedImports

inductive ImportKind where
  | plain
  | static
  | wildcard
  | staticWildcard
deriving DecidableEq

namespace ImportKind

def ofMarks (isStatic wildcard : Bool) : ImportKind :=
  match isStatic, wildcard with
  | false, false => .plain
  | true, false => .static
  | false, true => .wildcard
  | true, true => .staticWildcard

def isWildcard : ImportKind → Bool
  | wildcard | staticWildcard => true
  | plain | static => false

def isStatic : ImportKind → Bool
  | static | staticWildcard => true
  | plain | wildcard => false

def name : ImportKind → String
  | plain => "plain"
  | static => "static"
  | wildcard => "wildcard"
  | staticWildcard => "static-wildcard"

end ImportKind

structure ImportDeclaration where
  kind : ImportKind
  /-- The dotted path without the star. -/
  path : String
  /-- The last word of the path; a wildcard has none. -/
  simpleName : Option String
  aliasName : Option String
  /-- Whether annotations stand before the import. -/
  annotated : Bool
  span : Span
deriving DecidableEq

namespace ImportDeclaration

def boundName (declaration : ImportDeclaration) : Option String :=
  declaration.aliasName.or declaration.simpleName

def display (declaration : ImportDeclaration) : String :=
  "import " ++ (if declaration.kind.isStatic then "static " else "") ++ declaration.path ++
    (if declaration.kind.isWildcard then ".*" else "") ++
    (match declaration.aliasName with
      | some name => " as " ++ name
      | none => "")

/-- The declaration that a statement makes; `locate` gives the place of an extent of
tokens. -/
def ofStatement (locate : Extent → Span) (statement : ImportStatement) : ImportDeclaration where
  kind := .ofMarks statement.clause.isStatic statement.clause.wildcard
  path := String.intercalate "." statement.clause.segments
  simpleName := if statement.clause.wildcard then none else statement.clause.segments.getLast?
  aliasName := statement.clause.aliasName
  annotated := statement.annotations.isSome
  span := locate statement.tokens

end ImportDeclaration

end UnusedImports
