import ShaderVariants.Schedule.Scan
/-!
# Looking ahead in a token stream

A buffer scans as far as it is asked to. The errors of malformed tokens are recorded when they are
scanned, be it by taking a token or by looking ahead, and each is handed out once.
-/
namespace ShaderVariants.Schedule

structure TokenBuffer where
  cursor : Cursor
  /-- Scanned but not yet taken. -/
  ahead : List Token := []
  /-- Recorded but not yet handed out. -/
  errors : List SyntaxError := []

namespace TokenBuffer

def ofText (source : String) : TokenBuffer := { cursor := .ofText source }

/-- Scan one more token. -/
def fetch (b : TokenBuffer) : Token × TokenBuffer :=
  let (token, cursor) := scan b.cursor
  (token, { b with cursor, errors := b.errors ++ token.error?.toList })

/-- Take the next token. -/
def next (b : TokenBuffer) : Token × TokenBuffer :=
  match b.ahead with
  | token :: ahead => (token, { b with ahead })
  | [] => b.fetch

/-- Scan `n` more tokens into the buffer. -/
def fill : Nat → TokenBuffer → TokenBuffer
  | 0, b => b
  | n + 1, b => fill n { b.fetch.2 with ahead := b.ahead ++ [b.fetch.1] }

/-- Look at the token `n` places ahead; 0 is the next one. -/
def peekAt (b : TokenBuffer) (n : Nat) : Token × TokenBuffer :=
  let filled := b.fill (n + 1 - b.ahead.length)
  (filled.ahead.getD n filled.fetch.1, filled)

def peek (b : TokenBuffer) : Token × TokenBuffer := b.peekAt 0

/-- Hand out the recorded errors. -/
def takeErrors (b : TokenBuffer) : List SyntaxError × TokenBuffer :=
  (b.errors, { b with errors := [] })

end TokenBuffer

end ShaderVariants.Schedule
