import ShaderVariants.IR.Liveness
import ShaderVariants.Variant.Choosing
import ShaderVariants.Variant.Placement
/-!
# Resolving a variant

From a closure and a schedule to the representation of one variant: decide, place, and settle. A
circular or dangling reference leaves the shader without a representation. Pins and attributes that
the schedule decided stay in the closure either way.
-/
namespace ShaderVariants

namespace ShaderIR

/-- Settle the references of a placed shader, or say what is wrong with them. -/
def resolve (isComponent : String → Bool) (ir : ShaderIR) : Except Diagnostics ShaderIR :=
  match ir.settle isComponent with
  | .error d => .error [.errorIn ir.shader d.span (.circularity d.component)]
  | .ok settled =>
    match settled.dangling isComponent with
    | [] => .ok settled
    | dangling => .error (dangling.map fun r =>
        .errorIn ir.shader r.span
          (.unavailable r.definition.component r.reference r.definition.world))

end ShaderIR

/-- What resolving a closure leaves: the closure as decided, the representation if there is one,
and all complaints. -/
structure Variant where
  closure : Closure
  ir : Option ShaderIR
  diagnostics : Diagnostics

namespace Closure

def variant (closure : Closure) (schedule : Schedule) : Variant :=
  let chosen := Choosing.run closure schedule
  let decided := { closure with components := chosen.components }
  let placed := ShaderIR.ofComponents closure.name closure.pipeline chosen.components chosen.asked
  match placed.resolve chosen.components.contains with
  | .ok ir => ⟨decided, some ir, chosen.diagnostics⟩
  | .error diagnostics => ⟨decided, none, chosen.diagnostics ++ diagnostics⟩

/-- Resolve a closure and keep its representation. One that has a representation stays as it is. -/
def resolve (closure : Closure) (schedule : Schedule) : Closure × Diagnostics :=
  match closure.ir with
  | some _ => (closure, [])
  | none =>
    let v := closure.variant schedule
    ({ v.closure with ir := v.ir }, v.diagnostics)

end Closure

end ShaderVariants
