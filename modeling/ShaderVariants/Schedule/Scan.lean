import ShaderVariants.Schedule.Token
import ShaderVariants.Text.Blank
import ShaderVariants.Text.Word
/-!
# From characters to tokens

`scan` skips blanks and comments and cuts one token from what follows. Every token but the one at
the end of the text takes at least one character (`scan_rest_lt`), so `tokenize` ends.
-/
namespace ShaderVariants.Schedule
open Text

/-- Where the next character stands. -/
structure Position where
  line : Nat := 1
  col : Nat := 1
deriving DecidableEq

namespace Position

def step (p : Position) (c : Char) : Position :=
  if c = '\n' then ⟨p.line + 1, 1⟩ else ⟨p.line, p.col + c.utf8Size⟩

/-- The position behind a piece of text. -/
def advance (p : Position) (text : List Char) : Position := text.foldl step p

/-- The place of a piece of text that starts here. -/
def span (p : Position) (text : List Char) : Span :=
  ⟨p.line, p.col, (text.map Char.utf8Size).foldr (· + ·) 0⟩

end Position

/-- The part of the text not yet scanned. -/
structure Cursor where
  position : Position := {}
  rest : List Char

def Cursor.ofText (source : String) : Cursor := { rest := source.toList }

/-- What the next character is inside of. -/
inductive Region where
  | plain
  | line
  /-- Between the slash and the star that open a block comment. -/
  | opening (opener : Position)
  /-- `star` tells whether the character before was a star, so that a slash closes. -/
  | block (opener : Position) (star : Bool)

/-- How skipping ends: before a character that is neither blank nor comment, or at the end of the
text inside a block comment. -/
inductive Gap where
  | upTo (cursor : Cursor)
  | openComment (opener finish : Position)

/-- Skip blanks, line comments and block comments, which end at the first closer. -/
def skip (region : Region) (p : Position) : List Char → Gap
  | [] =>
    match region with
    | .plain | .line => .upTo ⟨p, []⟩
    | .opening opener | .block opener _ => .openComment opener p
  | c :: rest =>
    match region with
    | .plain =>
      if isBlank c then skip .plain (p.step c) rest
      else if c = '/' ∧ rest.head? = some '/' then skip .line (p.step c) rest
      else if c = '/' ∧ rest.head? = some '*' then skip (.opening p) (p.step c) rest
      else .upTo ⟨p, c :: rest⟩
    | .line => skip (if c = '\n' then .plain else .line) (p.step c) rest
    | .opening opener => skip (.block opener false) (p.step c) rest
    | .block opener star =>
      skip (if star ∧ c = '/' then .plain else .block opener (c = '*')) (p.step c) rest

/-- The rest of a string literal behind its opening quote, what follows it, and whether a quote
closes it. A backslash takes the next character with it, whatever it is; a newline of its own ends
an unclosed literal and belongs to it. -/
def cutString : List Char → List Char × List Char × Bool
  | [] => ([], [], false)
  | '\\' :: c :: rest =>
    let (text, rest, closed) := cutString rest
    ('\\' :: c :: text, rest, closed)
  | c :: rest =>
    if c = '"' then ([c], rest, true)
    else if c = '\n' then ([c], rest, false)
    else
      let (text, rest, closed) := cutString rest
      (c :: text, rest, closed)

def punctuation (c : Char) : Token.Kind :=
  if c = '=' then .equal
  else if c = ',' then .comma
  else if c = ';' then .semicolon
  else if c = ':' then .colon
  else if c = '.' then .dot
  else if c = '(' then .leftParen
  else if c = ')' then .rightParen
  else .invalid (.strayCharacter c)

/-- The kind and text of the token that starts with `c`, and what follows it. -/
def cut (c : Char) (cs : List Char) : Token.Kind × List Char × List Char :=
  if c = '"' then
    let (text, rest, closed) := cutString cs
    (if closed then .string else .invalid .openString, c :: text, rest)
  else if isWordStart c then
    let word := c :: cs.takeWhile isWordChar
    (if word = "attrib".toList then .attrib else .identifier, word, cs.dropWhile isWordChar)
  else (punctuation c, [c], cs)

/-- Malformed text leaves an empty lexeme. -/
def Token.ofText (kind : Token.Kind) (p : Position) (text : List Char) : Token where
  kind := kind
  lexeme := match kind with
    | .invalid _ => ""
    | _ => String.ofList text
  span := p.span text

/-- The next token and what follows it. At the end of the text that is the finishing token, again
and again. -/
def scan (cursor : Cursor) : Token × Cursor :=
  match skip .plain cursor.position cursor.rest with
  | .openComment opener finish =>
    ({ kind := .invalid .openComment, lexeme := "", span := opener.span ['/', '*'] }, ⟨finish, []⟩)
  | .upTo ⟨p, []⟩ => (.ofText .finish p [], ⟨p, []⟩)
  | .upTo ⟨p, c :: cs⟩ =>
    let (kind, text, rest) := cut c cs
    (.ofText kind p text, ⟨p.advance text, rest⟩)

theorem skip_plain_nil (p : Position) : skip .plain p [] = .upTo ⟨p, []⟩ := rfl

theorem skip_length {region : Region} {p : Position} {cs : List Char} {cursor : Cursor}
    (h : skip region p cs = .upTo cursor) : cursor.rest.length ≤ cs.length := by
  induction cs generalizing region p with
  | nil => cases region <;> cases h <;> exact Nat.le_refl _
  | cons c rest ih =>
    have later {r : Region} (h : skip r (p.step c) rest = .upTo cursor) :
        cursor.rest.length ≤ (c :: rest).length :=
      Nat.le_trans (ih h) (Nat.le_succ _)
    cases region with
    | plain =>
      rw [skip] at h
      split at h
      · exact later h
      split at h
      · exact later h
      split at h
      · exact later h
      · cases h; exact Nat.le_refl _
    | line => exact later h
    | opening opener => exact later h
    | block opener star => exact later h

theorem cutString_append (cs : List Char) :
    (cutString cs).1 ++ (cutString cs).2.1 = cs := by
  fun_induction cutString cs <;> simp_all

/-- Cutting a token loses nothing. -/
theorem cut_append (c : Char) (cs : List Char) : (cut c cs).2.1 ++ (cut c cs).2.2 = c :: cs := by
  unfold cut
  split
  · simpa using cutString_append cs
  · split <;> simp

theorem cut_length (c : Char) (cs : List Char) : (cut c cs).2.2.length ≤ cs.length := by
  have h : 0 < (cut c cs).2.1.length := by
    unfold cut; split
    · simp
    · split <;> simp
  have := congrArg List.length (cut_append c cs)
  simp at this
  omega

/-- Only the finishing token takes no character. -/
theorem scan_rest_lt {cursor : Cursor} (h : (scan cursor).1.kind ≠ .finish) :
    (scan cursor).2.rest.length < cursor.rest.length := by
  unfold scan at *
  split at h
  · rename_i hs
    cases hr : cursor.rest with
    | nil =>
      have hn : skip .plain cursor.position cursor.rest = .upTo ⟨cursor.position, []⟩ := by
        rw [hr]; exact skip_plain_nil _
      cases hn.symm.trans hs
    | cons c cs => simp
  · simp [Token.ofText] at h
  · rename_i c cs hs
    have h1 := skip_length hs
    have h2 := cut_length c cs
    simp only [List.length_cons] at h1
    exact Nat.lt_of_le_of_lt h2 h1

/-- The tokens of the text up to its end, and the finishing token. -/
def tokenize (cursor : Cursor) : List Token × Token :=
  if (scan cursor).1.kind = .finish then ([], (scan cursor).1)
  else
    let (tokens, finish) := tokenize (scan cursor).2
    ((scan cursor).1 :: tokens, finish)
termination_by cursor.rest.length
decreasing_by exact scan_rest_lt ‹_›

end ShaderVariants.Schedule
