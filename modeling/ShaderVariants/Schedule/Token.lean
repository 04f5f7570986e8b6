import ShaderVariants.Schedule.SyntaxError
/-!
# Tokens of schedule text

A token keeps its raw text, quotes and escapes included. Malformed input is a token too: it has no
text, carries its fault and so accounts for exactly one error.
-/
namespace ShaderVariants.Schedule

/-- Why a piece of text is no token. -/
inductive Fault where
  | strayCharacter (c : Char)
  | openString
  | openComment
deriving DecidableEq

namespace Fault

def kind : Fault → SyntaxError.Kind
  | strayCharacter _ => .unexpectedCharacter
  | openString => .unterminatedString
  | openComment => .unterminatedComment

def message : Fault → String
  | strayCharacter c => "unexpected character '" ++ String.singleton c ++ "'"
  | openString => "string literal is never closed"
  | openComment => "block comment is never closed"

end Fault

inductive Token.Kind where
  | identifier
  | string
  | attrib
  | equal
  | comma
  | semicolon
  | colon
  | dot
  | leftParen
  | rightParen
  | invalid (fault : Fault)
  | finish
deriving DecidableEq

def Token.Kind.name : Token.Kind → String
  | identifier => "Identifier"
  | string => "StringLiteral"
  | attrib => "Attrib"
  | equal => "Equal"
  | comma => "Comma"
  | semicolon => "Semicolon"
  | colon => "Colon"
  | dot => "Dot"
  | leftParen => "LeftParen"
  | rightParen => "RightParen"
  | invalid _ => "Error"
  | finish => "Eof"

structure Token where
  kind : Token.Kind
  lexeme : String
  span : Span
deriving DecidableEq

namespace Token

/-- `attrib` is reserved at the start of an entry only, so it is a name too. -/
def isName (t : Token) : Bool := t.kind == .identifier || t.kind == .attrib

/-- How a message names the token. -/
def describe (t : Token) : String :=
  match t.kind with
  | .finish => "end of file"
  | .invalid _ => "invalid input"
  | _ => "'" ++ t.lexeme ++ "'"

/-- The error that a malformed piece of text accounts for. -/
def error? (t : Token) : Option SyntaxError :=
  match t.kind with
  | .invalid fault => some { kind := fault.kind, span := t.span, message := fault.message }
  | _ => none

/-- A character as it stands in an inspected lexeme: ASCII control characters, quotes and
backslashes are escaped. -/
def inspectChar (c : Char) : List Char :=
  if c = '"' then ['\\', '"']
  else if c = '\\' then ['\\', '\\']
  else if c = '\n' then ['\\', 'n']
  else if c = '\t' then ['\\', 't']
  else if c = '\r' then ['\\', 'r']
  else if c.toNat = 0 then ['\\', '0']
  else if c.toNat < 0x20 || c.toNat = 0x7F then
    ['\\', 'u', '\x7b'] ++ Nat.toDigits 16 c.toNat ++ ['\x7d']
  else [c]

/-- All fields of a token on one line. -/
def inspect (t : Token) : String :=
  t.kind.name ++ "(\"" ++ String.ofList (t.lexeme.toList.flatMap inspectChar) ++
    "\" @ Span \x7b line: " ++ toString t.span.line ++ ", col: " ++ toString t.span.col ++
    ", len: " ++ toString t.span.len ++ " \x7d)"

end Token

end ShaderVariants.Schedule
