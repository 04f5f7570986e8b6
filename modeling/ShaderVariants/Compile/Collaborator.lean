import ShaderVariants.Builtin
import ShaderVariants.Closure
import ShaderVariants.Options
import ShaderVariants.Program
/-!
# Collaborators of a compile call

Analysis of the source, lowering, and generation of target text are supplied from outside, as
records of functions. A collaborator reports diagnostics, and can stop the call: quietly, when what
it reported says why, or with a failure of its own.
-/
namespace ShaderVariants

/-- Why a call stops. -/
inductive CompileError where
  /-- The diagnostics say why. -/
  | aborted
  | collaborator (stage cause : String)
deriving DecidableEq

def CompileError.message : CompileError → String
  | aborted => "compilation aborted after reporting diagnostics"
  | collaborator stage cause => stage ++ " failed: " ++ cause

/-- A value as a collaborator left it, what it reported, and the error it stopped with. -/
structure Change (α : Type) where
  value : α
  diagnostics : Diagnostics := []
  error : Option CompileError := none

/-- What a collaborator answered and reported. -/
structure Answer (α : Type) where
  outcome : Except CompileError α
  diagnostics : Diagnostics := []

structure Frontend where
  /-- Check the declarations and bring the symbol table up to date. -/
  analyze : Declarations → Builtins → SymbolTable → Change SymbolTable
  /-- The closure of a shader, if there is one. -/
  closure : SymbolTable → Shader → Answer (Option Closure)

/-- Flattening with the shaders of the table. -/
def Frontend.stockClosure (symbols : SymbolTable) (shader : Shader) : Answer (Option Closure) :=
  match Closure.ofShader symbols shader with
  | .ok closure => { outcome := .ok (some closure) }
  | .error d => { outcome := .ok none, diagnostics := [d] }

/-- Lowers declarations and resolved shaders into a program. -/
structure Generator where
  lowerStruct : StructDecl → LoweredProgram → Change LoweredProgram
  lowerFunction : FunctionDecl → SymbolTable → LoweredProgram → Change LoweredProgram
  /-- Insert what is needed where values cross worlds. -/
  insertImports : ShaderIR → Change ShaderIR
  lowerShader : ShaderIR → LoweredProgram → Change LoweredProgram

/-- The lowering that comes with the library. Imports are found when a shader is laid out, so there
is nothing to insert. -/
def Generator.stock : Generator where
  lowerStruct decl program := { value := program.addStruct ⟨decl.name, decl.fields⟩ }
  lowerFunction decl _ program := { value := program.addFunction decl.name }
  insertImports ir := { value := ir }
  lowerShader ir program := { value := program.addShader ir.lower }

structure Backend where
  /-- The text of a lowered shader in the target language. -/
  generate : SymbolTable → LoweredShader → Answer String

/-- One backend per target. -/
abbrev Backends := OrderedMap Target Backend

structure Compiler where
  frontend : Frontend
  generator : Generator
  backends : Backends

/-- A target as it stands in an inspected registry. -/
def Target.inspect : Target → String
  | glsl => "Glsl"
  | hlsl => "Hlsl"
  | spirv => "SpirV"

def Backends.inspect (b : Backends) : String :=
  "BackendRegistry \x7b targets: [" ++ ", ".intercalate (b.keys.map Target.inspect) ++ "] \x7d"

def Compiler.inspect (c : Compiler) : String :=
  "Compiler \x7b backends: " ++ Backends.inspect c.backends ++ ", .. \x7d"

end ShaderVariants
