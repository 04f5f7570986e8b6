/-!
# Quoted text

A backslash, a double quote, a newline and a tab are written as escapes. Reading is lenient: a
backslash before any other character stands for that character, one at the very end for itself.
-/
namespace ShaderVariants.Text

def escapeChar (c : Char) : List Char :=
  if c = '"' then ['\\', '"']
  else if c = '\\' then ['\\', '\\']
  else if c = '\n' then ['\\', 'n']
  else if c = '\t' then ['\\', 't']
  else [c]

def escape (cs : List Char) : List Char := cs.flatMap escapeChar

/-- The character that a backslash and `c` stand for. -/
def escapedChar (c : Char) : Char :=
  if c = 'n' then '\n' else if c = 't' then '\t' else c

def unescape : List Char → List Char
  | '\\' :: c :: rest => escapedChar c :: unescape rest
  | c :: rest => c :: unescape rest
  | [] => []

/-- Drop a leading and a trailing quote if both are there; a lone quote stays. -/
def unquote (cs : List Char) : List Char :=
  match cs with
  | '"' :: inner => if inner.getLast? = some '"' then inner.dropLast else cs
  | _ => cs

/-- The text that a literal, quotes included, stands for. -/
def literalValue (lexeme : String) : String :=
  String.ofList (unescape (unquote lexeme.toList))

theorem unescape_escape (cs : List Char) : unescape (escape cs) = cs := by
  induction cs with
  | nil => rfl
  | cons c rest ih =>
    show unescape (escapeChar c ++ escape rest) = c :: rest
    by_cases h1 : c = '"'
    · subst h1; simp [escapeChar, unescape, escapedChar, ih]
    by_cases h2 : c = '\\'
    · subst h2; simp [escapeChar, unescape, escapedChar, ih]
    by_cases h3 : c = '\n'
    · subst h3; simp [escapeChar, unescape, escapedChar, ih]
    by_cases h4 : c = '\t'
    · subst h4; simp [escapeChar, unescape, escapedChar, ih]
    have : escapeChar c = [c] := by simp [escapeChar, h1, h2, h3, h4]
    rw [this, List.singleton_append, unescape, ih]
    intro _ _ h _
    exact h2 h

end ShaderVariants.Text
