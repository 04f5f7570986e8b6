import ShaderVariants.Span
/-!
# Bodies of implementations

All that matters about a body here is which names it leaves free, since those may be references to
other components. Callees and members are never components.
-/
namespace ShaderVariants

inductive UnaryOp where
  | neg
  | not
deriving DecidableEq

inductive BinaryOp where
  | add
  | sub
  | mul
  | div
  | less
  | greater
  | equal
  | and
  | or
deriving DecidableEq

inductive Expr where
  | literal (value : String) (span : Span)
  | name (name : String) (span : Span)
  | unary (op : UnaryOp) (operand : Expr) (span : Span)
  | binary (op : BinaryOp) (left right : Expr) (span : Span)
  | call (callee : String) (args : List Expr) (span : Span)
  | member (base : Expr) (member : String) (span : Span)

def Expr.span : Expr → Span
  | literal _ s | name _ s | unary _ _ s | binary _ _ _ s | call _ _ s | member _ _ s => s

mutual
/-- Every name the expression reads, in source order. -/
def Expr.names : Expr → List (String × Span)
  | .literal _ _ => []
  | .name n span => [(n, span)]
  | .unary _ operand _ => operand.names
  | .binary _ left right _ => left.names ++ right.names
  | .call _ args _ => Expr.namesAll args
  | .member base _ _ => base.names

def Expr.namesAll : List Expr → List (String × Span)
  | [] => []
  | e :: rest => e.names ++ Expr.namesAll rest
end

inductive Stmt where
  | bind (name : String) (value : Expr) (span : Span)
  | expr (value : Expr)
  | ret (value : Expr) (span : Span)

namespace Stmt

def value : Stmt → Expr
  | bind _ value _ | expr value | ret value _ => value

def span : Stmt → Span
  | bind _ _ span | ret _ span => span
  | expr value => value.span

/-- The local name that the statement binds for those after it. -/
def bound : Stmt → List String
  | bind name _ _ => [name]
  | expr _ | ret _ _ => []

/-- The names that a sequence of statements reads and does not bind before. A binding does not see
itself. -/
def freeNames (locals : List String) : List Stmt → List (String × Span)
  | [] => []
  | s :: rest =>
    s.value.names.filter (fun n => !locals.contains n.1) ++ freeNames (s.bound ++ locals) rest

end Stmt

inductive Body where
  | expr (value : Expr)
  | block (stmts : List Stmt)

namespace Body

def freeNames : Body → List (String × Span)
  | expr value => value.names
  | block stmts => Stmt.freeNames [] stmts

/-- Where the body starts. -/
def span : Body → Span
  | expr value => value.span
  | block [] => {}
  | block (s :: _) => s.span

end Body

end ShaderVariants
