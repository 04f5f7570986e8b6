import ShaderVariants.OrderedMap
/-!
# Attributes

Named values attached to worlds and implementations, in the order in which they were written.
-/
namespace ShaderVariants

abbrev Attributes := OrderedMap String String

/-- Whether the attribute that asks for an output is there, whatever its value. -/
def Attributes.pinned (a : Attributes) : Bool := a.contains "Pinned"

end ShaderVariants
