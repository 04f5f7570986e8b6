import ShaderVariants.Diagnostic
import ShaderVariants.Schedule.Entry
import ShaderVariants.Schedule.Scan
/-!
# Schedules as text

Reading goes on after a mistake: an entry counts only if it is complete, and what stands between
the mistake and the next semicolon is passed over. Writing leaves out choices without selections,
for which there is no syntax.
-/
namespace ShaderVariants

namespace Schedule

/-- The tokens behind the next semicolon. -/
def skipEntry (tokens : List Token) : List Token :=
  (tokens.dropWhile (·.kind != .semicolon)).tail

theorem skipEntry_length (tokens : List Token) :
    (skipEntry tokens).length ≤ tokens.length - 1 := by
  have := (List.dropWhile_sublist (·.kind != .semicolon) (l := tokens)).length_le
  simp only [skipEntry, List.length_tail]
  omega

/-- All entries in order, and in place of a broken one what it misses. -/
def readEntries : List Token → List (Except Missing Entry)
  | [] => []
  | t :: ts =>
    match _h : Entry.read (t :: ts) with
    | .ok (entry, rest) => .ok entry :: readEntries rest
    | .error missing => .error missing :: readEntries (skipEntry missing.rest)
termination_by tokens => tokens.length
decreasing_by
  · have := Entry.takes_read (t :: ts)
    simp only [_h] at this
    omega
  · have := Entry.takes_read (t :: ts)
    simp only [_h] at this
    have := skipEntry_length missing.rest
    simp only [List.length_cons] at *
    omega

def add (s : Schedule) : Entry → Schedule
  | .choice name selections => s.select name selections
  | .attrib name attributes => s.setAttributes name attributes

/-- The schedule that a text describes, and its errors from top to bottom. -/
def read (source : String) : Schedule × List SyntaxError :=
  let (tokens, finish) := tokenize (.ofText source)
  let entries := readEntries tokens
  let complete := entries.filterMap Except.toOption
  let broken := entries.filterMap fun
    | .ok _ => none
    | .error missing => missing.error? finish
  (complete.foldl add {},
    (tokens.filterMap Token.error? ++ broken).mergeSort SyntaxError.notAfter)

/-- As `read`, with the errors reported against a file. -/
def parse (source file : String) : Schedule × Diagnostics :=
  let (schedule, errors) := read source
  (schedule, errors.map fun e =>
    .errorIn file e.span (.scheduleSyntax (e.kind.text ++ ": " ++ e.message)))

end Schedule

def Selection.text (s : Selection) : String :=
  match s.alternate with
  | some alternate => s.world ++ ":" ++ alternate
  | none => s.world

namespace Schedule

def choiceText (name : String) (selections : List Selection) : String :=
  if selections.isEmpty then ""
  else name ++ " = " ++ ", ".intercalate (selections.map Selection.text) ++ ";\n"

def attributeText (key value : String) : String :=
  key ++ " = \"" ++ String.ofList (Text.escape value.toList) ++ "\""

def attributesText (name : String) (attributes : Attributes) : String :=
  "attrib " ++ name ++ "(" ++
    ", ".intercalate (attributes.entries.map fun e => attributeText e.1 e.2) ++ ");\n"

/-- Text that reads back as the same schedule. -/
def text (s : Schedule) : String :=
  String.join (s.choices.entries.map fun e => choiceText e.1 e.2) ++
    String.join (s.attributes.entries.map fun e => attributesText e.1 e.2)

end Schedule

end ShaderVariants
