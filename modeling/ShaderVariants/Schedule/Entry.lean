import ShaderVariants.Schedule.Basic
import ShaderVariants.Schedule.Token
import ShaderVariants.Text.Quoted
/-!
# Entries of schedule text

    entry     = choice '=' selection (',' selection)* ';'
              | 'attrib' choice '(' (attribute (',' attribute)*)? ')' ';'
    choice    = name ('.' name)*
    selection = name (':' name)?
    attribute = name '=' string

A reader takes tokens from the front. When it fails it leaves the tokens from the first one that
cannot stand where it does. Every reader says how many tokens it takes at least (`Takes`), which
is what makes reading a whole text end.
-/
namespace ShaderVariants.Schedule

/-- What should have come next, and the tokens that came instead. -/
structure Missing where
  expected : String
  rest : List Token

/-- The error to report, if it is not one of a malformed token, which is reported by itself.
`finish` is the token at the end of the text. -/
def Missing.error? (m : Missing) (finish : Token) : Option SyntaxError :=
  match m.rest with
  | [] => some (.atEnd finish.span m.expected)
  | token :: _ =>
    match token.kind with
    | .invalid _ => none
    | _ => some (.expected token.span m.expected token.describe)

abbrev Reader := StateT (List Token) (Except Missing)

namespace Reader
variable {α β : Type}

/-- On success at least `n` tokens are gone, on failure none were added. -/
def Takes (n : Nat) (r : Reader α) : Prop := ∀ tokens,
  match r tokens with
  | .ok (_, rest) => rest.length + n ≤ tokens.length
  | .error missing => missing.rest.length ≤ tokens.length

theorem Takes.pure (a : α) : Takes 0 (Pure.pure a : Reader α) := fun _ => Nat.le_refl _

theorem Takes.bind {m n : Nat} {r : Reader α} {f : α → Reader β} (hr : Takes m r)
    (hf : ∀ a, Takes n (f a)) : Takes (m + n) (r >>= f) := by
  intro tokens
  show match (r tokens).bind (fun p => f p.1 p.2) with
    | .ok (_, rest) => rest.length + (m + n) ≤ tokens.length
    | .error missing => missing.rest.length ≤ tokens.length
  have h := hr tokens
  cases hc : r tokens with
  | error missing => simpa [Except.bind, hc] using h
  | ok p =>
    simp only [hc] at h
    have h' := hf p.1 p.2
    simp only [Except.bind]
    cases hd : f p.1 p.2 with
    | error missing => simp only [hd] at h' ⊢; omega
    | ok q => simp only [hd] at h' ⊢; omega

theorem Takes.mono {m n : Nat} {r : Reader α} (h : Takes n r) (hm : m ≤ n) : Takes m r := by
  intro tokens
  have := h tokens
  cases hc : r tokens with
  | error missing => simpa [hc] using this
  | ok p => simp only [hc] at this ⊢; omega

/-- Take a token that passes the test. -/
def token (accept : Token → Bool) (expected : String) : Reader Token
  | [] => .error ⟨expected, []⟩
  | t :: rest => if accept t then .ok (t, rest) else .error ⟨expected, t :: rest⟩

def kind (k : Token.Kind) (expected : String) : Reader Token := token (·.kind == k) expected

def name (expected : String) : Reader String := Token.lexeme <$> token Token.isName expected

/-- The kind of the next token, which stays where it is. -/
def nextIs (k : Token.Kind) : Reader Bool := fun tokens =>
  .ok (tokens.head?.any (·.kind == k), tokens)

/-- Separators, each followed by an item, as many as there are. -/
def more (separator : Token.Kind) (item : Reader α) : Reader (List α)
  | [] => .ok ([], [])
  | t :: rest =>
    if t.kind = separator then
      match item rest with
      | .error missing => .error missing
      | .ok (a, rest') =>
        if rest'.length ≤ rest.length then
          match more separator item rest' with
          | .error missing => .error missing
          | .ok (as, rest'') => .ok (a :: as, rest'')
        else .ok ([a], rest')
    else .ok ([], t :: rest)
termination_by tokens => tokens.length

theorem takes_token (accept : Token → Bool) (expected : String) :
    Takes 1 (token accept expected) := by
  intro tokens
  cases tokens with
  | nil => simp [token]
  | cons t rest => by_cases h : accept t <;> simp [token, h]

theorem takes_kind (k : Token.Kind) (expected : String) : Takes 1 (kind k expected) :=
  takes_token _ _

theorem takes_name (expected : String) : Takes 1 (name expected) := by
  intro tokens
  cases tokens with
  | nil => simp [name, token, Functor.map, StateT.map, bind, Except.bind]
  | cons t rest =>
    by_cases h : t.isName <;>
      simp [name, token, Functor.map, StateT.map, bind, Except.bind, pure, Except.pure, h]

theorem takes_nextIs (k : Token.Kind) : Takes 0 (nextIs k) := fun _ => Nat.le_refl _

theorem takes_more {separator : Token.Kind} {item : Reader α} (h : Takes 0 item) :
    Takes 0 (more separator item) := by
  intro tokens
  fun_induction more separator item tokens with
  | case1 => simp
  | case2 t rest ht missing hc =>
    have := h rest
    simp only [hc] at this
    simp only [List.length_cons]
    omega
  | case3 t rest ht a rest' hc hle missing hm ih =>
    simp only [hm] at ih
    simp only [List.length_cons]
    omega
  | case4 t rest ht a rest' hc hle as rest'' hm ih =>
    simp only [hm] at ih
    simp only [List.length_cons]
    omega
  | case5 t rest ht a rest' hc hle =>
    have := h rest
    simp only [hc] at this
    exact absurd this hle
  | case6 => simp

end Reader

inductive Entry where
  | choice (name : String) (selections : List Selection)
  | attrib (name : String) (attributes : List (String × String))

namespace Entry
open Reader

/-- A choice name, its segments joined by dots. -/
def readChoice : Reader String := do
  let first ← name "choice name"
  let others ← more .dot (name "identifier after '.'")
  return ".".intercalate (first :: others)

def readSelection : Reader Selection := do
  let world ← token Token.isName "world name"
  if ← nextIs .colon then
    let _ ← kind .colon "':'"
    let alternate ← token Token.isName "alternate name"
    return ⟨world.lexeme, some alternate.lexeme, world.span.extendTo alternate.span⟩
  else return ⟨world.lexeme, none, world.span⟩

def readAttribute : Reader (String × String) := do
  let key ← name "attribute name"
  let _ ← kind .equal "'='"
  let value ← kind .string "string value"
  return (key, Text.literalValue value.lexeme)

def readSelections : Reader Entry := do
  let choice ← readChoice
  let _ ← kind .equal "'='"
  let first ← readSelection
  let others ← more .comma readSelection
  let _ ← kind .semicolon "';'"
  return .choice choice (first :: others)

/-- The attributes up to the closing parenthesis, if the list is not empty. -/
def readAttributeList : Reader (List (String × String)) := do
  if ← nextIs .rightParen then return []
  else
    let first ← readAttribute
    let others ← more .comma readAttribute
    return first :: others

def readAttributes : Reader Entry := do
  let _ ← kind .attrib "'attrib'"
  let choice ← readChoice
  let _ ← kind .leftParen "'('"
  let attributes ← readAttributeList
  let _ ← kind .rightParen "')'"
  let _ ← kind .semicolon "';'"
  return .attrib choice attributes

/-- Whether an attribute entry starts here: `attrib` before `=` or `.` is a choice of that name. -/
def startsAttributes : List Token → Bool
  | first :: second :: _ => first.kind == .attrib && second.kind != .equal && second.kind != .dot
  | [first] => first.kind == .attrib
  | [] => false

def read : Reader Entry := fun tokens =>
  if startsAttributes tokens then readAttributes tokens else readSelections tokens

theorem takes_readChoice : Takes 1 readChoice :=
  (takes_name _).bind fun _ =>
    (takes_more ((takes_name _).mono (by omega))).bind fun _ => Takes.pure _

theorem takes_readSelection : Takes 1 readSelection := by
  refine (takes_token _ _).bind (n := 0) fun _ => (takes_nextIs _).bind (n := 0) fun colon => ?_
  split
  · exact (((takes_kind _ _).bind fun _ => (takes_token _ _).bind fun _ =>
      Takes.pure _).mono (by omega))
  · exact Takes.pure _

theorem takes_readAttribute : Takes 1 readAttribute :=
  ((takes_name _).bind fun _ => (takes_kind _ _).bind fun _ => (takes_kind _ _).bind fun _ =>
    Takes.pure _).mono (by omega)

theorem takes_readSelections : Takes 1 readSelections :=
  (takes_readChoice.bind fun _ => (takes_kind _ _).bind fun _ => takes_readSelection.bind fun _ =>
    (takes_more (takes_readSelection.mono (by omega))).bind fun _ =>
      (takes_kind _ _).bind fun _ => Takes.pure _).mono (by omega)

theorem takes_readAttributeList : Takes 0 readAttributeList := by
  refine (takes_nextIs _).bind (n := 0) fun closed => ?_
  split
  · exact Takes.pure _
  · exact (takes_readAttribute.bind fun _ =>
      (takes_more (takes_readAttribute.mono (by omega))).bind fun _ => Takes.pure _).mono (by omega)

theorem takes_readAttributes : Takes 1 readAttributes :=
  ((takes_kind _ _).bind fun _ => takes_readChoice.bind fun _ => (takes_kind _ _).bind fun _ =>
    takes_readAttributeList.bind fun _ => (takes_kind _ _).bind fun _ =>
      (takes_kind _ _).bind fun _ => Takes.pure _).mono (by omega)

theorem takes_read : Takes 1 read := by
  intro tokens
  unfold read
  by_cases h : startsAttributes tokens
  · rw [if_pos h]; exact takes_readAttributes tokens
  · rw [if_neg h]; exact takes_readSelections tokens

end Entry

end ShaderVariants.Schedule
