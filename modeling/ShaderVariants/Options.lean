import ShaderVariants.Text.Blank
/-!
# Options of a compile call
-/
namespace ShaderVariants

/-- The language that source is generated in. -/
inductive Target where
  | glsl
  | hlsl
  | spirv
deriving DecidableEq

namespace Target

def text : Target → String
  | glsl => "glsl"
  | hlsl => "hlsl"
  | spirv => "spirv"

def all : List Target := [glsl, hlsl, spirv]

end Target

/-- What a call produces. -/
inductive Mode where
  /-- Source of the requested shaders. -/
  | produceShader
  /-- The choices that are still open. -/
  | generateChoice
  /-- Functions and structs only, which no call handles. -/
  | produceLibrary
deriving DecidableEq

namespace Mode

def text : Mode → String
  | produceShader => "produce-shader"
  | generateChoice => "generate-choice"
  | produceLibrary => "produce-library"

def all : List Mode := [produceShader, generateChoice, produceLibrary]

end Mode

structure Options where
  target : Target := .glsl
  mode : Mode := .produceShader
  schedule : String := ""
  /-- The file name that complaints about the schedule carry. -/
  scheduleFile : String := ""
  /-- The only shader that is wanted. -/
  symbol : Option String := none
deriving DecidableEq

/-- Blank text is no schedule. -/
def Options.hasSchedule (o : Options) : Bool := o.schedule.toList.any (!Text.isBlank ·)

end ShaderVariants
