/-!
# Places in a text

Lines and columns count from 1, columns and lengths in UTF-8 bytes. Line 0 means that the place
is not known.
-/
namespace ShaderVariants

structure Span where
  line : Nat := 0
  col : Nat := 0
  len : Nat := 0
deriving DecidableEq, Inhabited

namespace Span

/-- Lengthen a span to the end of one that starts on the same line, not before it. Any other
span leaves it as it is. -/
def extendTo (s t : Span) : Span :=
  if t.line ≠ s.line ∨ t.col < s.col then s
  else { s with len := max (t.col + t.len - s.col) s.len }

def text (s : Span) : String :=
  if s.line = 0 then "?" else toString s.line ++ ":" ++ toString s.col

/-- Where in the named shader or file a span lies. -/
def textIn (scope : Option String) (s : Span) : String :=
  match scope with
  | some name => name ++ ":" ++ s.text
  | none => s.text

end Span

end ShaderVariants
