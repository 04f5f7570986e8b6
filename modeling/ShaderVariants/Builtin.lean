import ShaderVariants.OrderedMap
/-!
# Built-in types of the shading language
-/
namespace ShaderVariants

inductive Scalar where
  | bool
  | int
  | uint
  | float
deriving DecidableEq

inductive BuiltinKind where
  | scalar
  | vector (size : Nat)
  | matrix (rows columns : Nat)
  | texture
  | sampler
deriving DecidableEq

/-- The number of scalars in a value; resources are opaque and have none. -/
def BuiltinKind.elementCount : BuiltinKind → Nat
  | scalar => 1
  | vector size => size
  | matrix rows columns => rows * columns
  | texture | sampler => 0

structure Builtin where
  kind : BuiltinKind
  /-- The element type, which resources lack. -/
  scalar : Option Scalar := none
deriving DecidableEq

/-- Built-in types by name. -/
abbrev Builtins := OrderedMap String Builtin

namespace Builtins

def vectors (letter : String) (scalar : Scalar) : List (String × Builtin) :=
  [2, 3, 4].map fun n => (letter ++ "vec" ++ toString n, ⟨.vector n, some scalar⟩)

/-- The scalars, their vectors, the square float matrices, and the resources. -/
def standard : Builtins := .ofList <|
  [("bool", ⟨.scalar, some .bool⟩), ("int", ⟨.scalar, some .int⟩),
    ("uint", ⟨.scalar, some .uint⟩), ("float", ⟨.scalar, some .float⟩)] ++
  vectors "b" .bool ++ vectors "i" .int ++ vectors "u" .uint ++ vectors "" .float ++
  [2, 3, 4].map (fun n => ("mat" ++ toString n, ⟨.matrix n n, some .float⟩)) ++
  [("texture2D", ⟨.texture, none⟩), ("textureCube", ⟨.texture, none⟩),
    ("texture2DShadow", ⟨.texture, none⟩), ("sampler", ⟨.sampler, none⟩)]

end Builtins

end ShaderVariants
