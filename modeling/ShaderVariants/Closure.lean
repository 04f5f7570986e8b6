import ShaderVariants.Diagnostic
import ShaderVariants.IR.Basic
import ShaderVariants.SymbolTable
/-!
# Shader closures

A closure is a shader together with the components it inherits. It owns its copies, so resolving
it never changes the symbol table, and it keeps the representation once that is resolved.
-/
namespace ShaderVariants

structure Closure where
  name : String
  pipeline : Pipeline
  /-- Inherited components before own ones. -/
  components : Components := ∅
  ir : Option ShaderIR := none
  span : Span := {}

/-- Closures by shader name. -/
abbrev Closures := OrderedMap String Closure

namespace Closure

/-- Add a component, or replace the one of its name where it stands. -/
def addComponent (c : Closure) (component : Component) : Closure :=
  { c with components := c.components.add component }

/-- The closure of a shader, which need not be in the table itself. Used modules come first, and
what is declared again further down replaces what was inherited. -/
def ofShader (symbols : SymbolTable) (shader : Shader) : Except Diagnostic Closure :=
  match symbols.pipelines.find? shader.pipeline with
  | none =>
    .error (.errorIn shader.name shader.span
      (.other ("unknown pipeline '" ++ shader.pipeline ++ "'")))
  | some pipeline =>
    let inherited := (symbols.shaders.dependencies [shader]).flatMap (·.components.values)
    .ok (inherited.foldl addComponent { name := shader.name, pipeline, span := shader.span })

end Closure

end ShaderVariants
