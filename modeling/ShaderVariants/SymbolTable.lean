import ShaderVariants.Component
import ShaderVariants.Pipeline
/-!
# Shaders and the symbol table

A shader belongs to a pipeline, declares components and inherits those of the modules it uses. The
table keeps pipelines, shaders and functions in declaration order. A shader stands under the name
that it was declared with, and whatever changes it there may change its own name too.
-/
namespace ShaderVariants

structure Shader where
  name : String
  pipeline : String
  /-- A module is there to be used by shaders and is not compiled itself. -/
  isModule : Bool := false
  uses : List String := []
  components : Components := ∅
  span : Span := {}

/-- Shaders by the names that they were declared with. -/
abbrev Shaders := OrderedMap String Shader

namespace Shaders

/-- The shaders that a shader uses. Unknown names are passed over. -/
def used (shaders : Shaders) (shader : Shader) : List Shader :=
  shader.uses.filterMap shaders.find?

/-- The shaders reached from the roots through uses, each after those that it led to. They are told
apart by their own names: of several with one name the first that is met stands for all. -/
def dependencies (shaders : Shaders) (roots : List Shader) : List Shader :=
  Graph.postorderBy Shader.name shaders.used ((roots ++ shaders.values).map Shader.name) roots

end Shaders

structure SymbolTable where
  pipelines : OrderedMap String Pipeline := ∅
  shaders : Shaders := ∅
  functions : List String := []

namespace SymbolTable

def addPipeline (t : SymbolTable) (p : Pipeline) : SymbolTable :=
  { t with pipelines := t.pipelines.insert p.name p }

def addShader (t : SymbolTable) (s : Shader) : SymbolTable :=
  { t with shaders := t.shaders.insert s.name s }

/-- Change a shader where it stands. -/
def modifyShader (t : SymbolTable) (name : String) (f : Shader → Shader) : SymbolTable :=
  { t with shaders := t.shaders.modify name f }

def addFunction (t : SymbolTable) (name : String) : SymbolTable :=
  { t with functions := t.functions ++ [name] }

/-- All shaders, used ones before their users. Declaration order holds where uses do not force
another, and a circle of uses is cut where the search meets it. -/
def dependenceOrder (t : SymbolTable) : List Shader := t.shaders.dependencies t.shaders.values

end SymbolTable

end ShaderVariants
