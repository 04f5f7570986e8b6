import ShaderVariants.Span
/-!
# Diagnostics

Everything a compile call has to say about its input. Diagnostics stand in the order in which
they were reported, and only errors keep a later stage from running.
-/
namespace ShaderVariants

/-- What is wrong, with the names its wording needs. -/
inductive Problem where
  | scheduleSyntax (message : String)
  | illegalWorld (world choice : String)
  | circularity (component : String)
  | unavailable (component reference world : String)
  | unsupportedMode (mode : String)
  | unsupportedTarget (target : String)
  | other (message : String)
deriving DecidableEq

namespace Problem

/-- The identifier of the kind of problem, whatever names it holds. -/
def code : Problem → String
  | scheduleSyntax _ => "schedule-syntax"
  | illegalWorld _ _ => "invalid-choice-for-key"
  | circularity _ => "component-definition-circularity"
  | unavailable _ _ _ => "unresolved-component-reference"
  | unsupportedMode _ => "unsupported-compiler-mode"
  | unsupportedTarget _ => "unsupported-target"
  | other _ => "other"

def message : Problem → String
  | scheduleSyntax message => "schedule syntax error: " ++ message
  | illegalWorld world choice =>
    "'" ++ world ++ "' is not a valid choice for '" ++ choice ++ "'"
  | circularity component => "component definition circularity in '" ++ component ++ "'"
  | unavailable component reference world =>
    "'" ++ component ++ "' in world '" ++ world ++ "' references unavailable '" ++ reference ++ "'"
  | unsupportedMode mode => "unsupported compiler mode '" ++ mode ++ "'"
  | unsupportedTarget target =>
    "no code generation backend registered for target '" ++ target ++ "'"
  | other message => message

end Problem

inductive Severity where
  | error
  | warning
  | info
deriving DecidableEq

def Severity.text : Severity → String
  | error => "error"
  | warning => "warning"
  | info => "info"

structure Diagnostic where
  severity : Severity
  problem : Problem
  /-- The shader or file it belongs to. -/
  scope : Option String := none
  span : Span := {}
deriving DecidableEq

namespace Diagnostic

def error (span : Span) (problem : Problem) : Diagnostic :=
  { severity := .error, problem, span }

def errorIn (scope : String) (span : Span) (problem : Problem) : Diagnostic :=
  { severity := .error, problem, scope := some scope, span }

def warningIn (scope : String) (span : Span) (problem : Problem) : Diagnostic :=
  { severity := .warning, problem, scope := some scope, span }

def isError (d : Diagnostic) : Bool := d.severity == .error

def text (d : Diagnostic) : String :=
  d.span.textIn d.scope ++ ": " ++ d.severity.text ++ ": " ++ d.problem.message

end Diagnostic

/-- Reports in the order in which they were made. -/
abbrev Diagnostics := List Diagnostic

namespace Diagnostics

def errors (ds : Diagnostics) : Diagnostics := ds.filter Diagnostic.isError

def errorCount (ds : Diagnostics) : Nat := ds.countP Diagnostic.isError

def hasErrors (ds : Diagnostics) : Bool := ds.any Diagnostic.isError

def ofCode (ds : Diagnostics) (code : String) : Diagnostics :=
  ds.filter fun d => d.problem.code == code

/-- One line per diagnostic. -/
def text (ds : Diagnostics) : String := String.join (ds.map fun d => d.text ++ "\n")

theorem hasErrors_iff {ds : Diagnostics} : ds.hasErrors = true ↔ 0 < ds.errorCount := by
  simp [hasErrors, errorCount, List.countP_pos_iff]

theorem errors_append (a b : Diagnostics) : errors (a ++ b) = errors a ++ errors b :=
  List.filter_append _ _

theorem errors_of_clean {ds : Diagnostics} (h : ds.hasErrors = false) : ds.errors = [] :=
  List.filter_eq_nil_iff.mpr fun d hd => by simpa using List.any_eq_false.mp h d hd

theorem ofCode_append (a b : Diagnostics) (code : String) :
    ofCode (a ++ b) code = ofCode a code ++ ofCode b code :=
  List.filter_append _ _

theorem ofCode_eq_nil {ds : Diagnostics} {code : String} (h : ∀ d ∈ ds, d.problem.code ≠ code) :
    ds.ofCode code = [] :=
  List.filter_eq_nil_iff.mpr fun d hd => by simpa using h d hd

end Diagnostics

end ShaderVariants
