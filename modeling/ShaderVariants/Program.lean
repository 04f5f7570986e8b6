import ShaderVariants.Lowered
/-!
# Programs

What the source files of a call declare, and the program that lowering accumulates from them.
-/
namespace ShaderVariants

structure ShaderDecl where
  name : String
  isModule : Bool := false
  span : Span := {}
deriving DecidableEq

structure FunctionDecl where
  name : String
  span : Span := {}
deriving DecidableEq

structure StructDecl where
  name : String
  /-- Names and types. -/
  fields : List (String × String) := []
  span : Span := {}
deriving DecidableEq

/-- The declarations of one or more files. -/
structure Declarations where
  shaders : List ShaderDecl := []
  functions : List FunctionDecl := []
  structs : List StructDecl := []
deriving DecidableEq

structure SourceUnit where
  file : String
  declarations : Declarations := {}
deriving DecidableEq

namespace Declarations

/-- The declarations of all units, in order. -/
def ofUnits (units : List SourceUnit) : Declarations where
  shaders := units.flatMap (·.declarations.shaders)
  functions := units.flatMap (·.declarations.functions)
  structs := units.flatMap (·.declarations.structs)

/-- What can be emitted: shaders that are no modules, and functions. -/
def emittable (d : Declarations) : List String :=
  (d.shaders.filter (!·.isModule)).map ShaderDecl.name ++ d.functions.map FunctionDecl.name

end Declarations

/-- Whether source is wanted for a shader: it is the one asked for or, if none is, its name starts
with that of a shader or function that the units declare. -/
def isRequested (units : List SourceUnit) (symbol : Option String) (name : String) : Bool :=
  match symbol with
  | some s => s == name
  | none => units.any fun u =>
      u.declarations.emittable.any fun declared => declared.toList.isPrefixOf name.toList

structure LoweredStruct where
  name : String
  fields : List (String × String)
deriving DecidableEq

/-- All that was lowered so far. -/
structure LoweredProgram where
  structs : List LoweredStruct := []
  functions : List String := []
  shaders : List LoweredShader := []

namespace LoweredProgram

/-- Add a struct at the end, in place of an earlier one of its name. -/
def putStruct (l : List LoweredStruct) (s : LoweredStruct) : List LoweredStruct :=
  l.filter (·.name ≠ s.name) ++ [s]

def addStruct (p : LoweredProgram) (s : LoweredStruct) : LoweredProgram :=
  { p with structs := putStruct p.structs s }

/-- Add a name at the end, unless it is there. -/
def putName (l : List String) (name : String) : List String :=
  if name ∈ l then l else l ++ [name]

def addFunction (p : LoweredProgram) (name : String) : LoweredProgram :=
  { p with functions := putName p.functions name }

/-- Replace the shader of that name where it stands, or add it at the end. -/
def putShader (s : LoweredShader) : List LoweredShader → List LoweredShader
  | [] => [s]
  | t :: rest => if t.name = s.name then s :: rest else t :: putShader s rest

def addShader (p : LoweredProgram) (s : LoweredShader) : LoweredProgram :=
  { p with shaders := putShader s p.shaders }

def shader? (p : LoweredProgram) (name : String) : Option LoweredShader :=
  p.shaders.find? (·.name = name)

end LoweredProgram

end ShaderVariants
