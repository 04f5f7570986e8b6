import ShaderVariants.Span
/-!
# Syntax errors of schedule text
-/
namespace ShaderVariants.Schedule

inductive SyntaxError.Kind where
  | unexpectedCharacter
  | unterminatedString
  | unterminatedComment
  | expectedToken
  | unexpectedEnd
deriving DecidableEq

namespace SyntaxError.Kind

def text : SyntaxError.Kind → String
  | unexpectedCharacter => "unexpected character"
  | unterminatedString => "unterminated string"
  | unterminatedComment => "unterminated comment"
  | expectedToken => "expected token"
  | unexpectedEnd => "unexpected end of file"

def all : List SyntaxError.Kind :=
  [unexpectedCharacter, unterminatedString, unterminatedComment, expectedToken, unexpectedEnd]

end SyntaxError.Kind

structure SyntaxError where
  kind : SyntaxError.Kind
  span : Span
  message : String
deriving DecidableEq

namespace SyntaxError

/-- Something else stands where `expected` should. -/
def expected (span : Span) (expected found : String) : SyntaxError :=
  { kind := .expectedToken, span, message := "expected " ++ expected ++ ", found " ++ found }

/-- The text ends where `expected` should stand. -/
def atEnd (span : Span) (expected : String) : SyntaxError :=
  { kind := .unexpectedEnd, span, message := "expected " ++ expected ++ ", found end of file" }

def text (e : SyntaxError) : String :=
  e.kind.text ++ " at " ++ e.span.text ++ ": " ++ e.message

/-- Not later in the text. -/
def notAfter (a b : SyntaxError) : Bool :=
  a.span.line < b.span.line || (a.span.line == b.span.line && a.span.col ≤ b.span.col)

end SyntaxError

end ShaderVariants.Schedule
