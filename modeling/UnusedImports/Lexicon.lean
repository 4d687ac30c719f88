/-!
The fixed words and signs of Groovy that the analysis knows by name: reserved words, the
operator table, and the few word classes that tell declarations and type positions apart.
-/
namespace UnusedImports.Lexicon

/-- The reserved words. Contextual words such as `var`, `record` or `sealed` are names. -/
def keywords : List String :=
  ["package", "import", "class", "interface", "enum", "trait", "extends", "implements",
   "throws", "def", "as", "in", "abstract", "final", "native", "private", "protected",
   "public", "static", "strictfp", "synchronized", "threadsafe", "transient", "volatile",
   "default", "boolean", "byte", "char", "double", "float", "int", "long", "short", "void",
   "assert", "break", "case", "catch", "continue", "do", "else", "finally", "for", "goto",
   "if", "return", "switch", "throw", "try", "while", "const", "instanceof", "new", "super",
   "this", "true", "false", "null"]

/-- Operators and punctuation, longer ones before shorter ones. -/
def operators : List String :=
  [">>>=", "...", "..<", "<..", "<=>", "===", "!==", "**=", "<<=", ">>=", ">>>", "==~", "?.",
   "*.", ".&", ".@", "::", "->", "?:", "..", "++", "--", "==", "!=", "<=", ">=", "&&", "||",
   "+=", "-=", "*=", "/=", "%=", "&=", "|=", "^=", "**", "<<", ">>", "=~", "\x7b", "\x7d", "(",
   ")", "[", "]", ";", ",", ".", ":", "?", "!", "~", "+", "-", "*", "/", "%", "=", "<", ">",
   "&", "|", "^", "@", "\\"]

def isKeyword (word : String) : Bool := keywords.contains word

def opensType (word : String) : Bool :=
  ["class", "interface", "enum", "trait"].contains word

def isModifier (word : String) : Bool :=
  ["abstract", "final", "private", "protected", "public", "static", "strictfp", "sealed",
   "non", "transient", "volatile", "synchronized", "default"].contains word

def introducesType (word : String) : Bool :=
  ["new", "extends", "implements", "instanceof", "as", "throws", "class", "interface", "enum",
   "trait", "record"].contains word

def isMemberAccess (operator : String) : Bool :=
  [".", "?.", "*.", ".&", ".@", "::"].contains operator

/-- The reserved words that are values, so that an operator and no operand follows them. -/
def isValueWord (word : String) : Bool :=
  ["this", "super", "true", "false", "null"].contains word

def endsOperand (operator : String) : Bool :=
  [")", "]", "\x7d", "++", "--"].contains operator

end UnusedImports.Lexicon
