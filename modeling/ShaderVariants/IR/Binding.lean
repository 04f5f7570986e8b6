import ShaderVariants.IR.Basic
/-!
# Binding references

A free name of a body that names a component is a reference. It binds to the survivor of that
component in the same world, or else in the nearest world that feeds it: the latest in topological
order among those that reach it. `isComponent` tells which names are components.
-/
namespace ShaderVariants

/-- A reference that has nothing to bind to. -/
structure Dangling where
  definition : Definition
  reference : String
  span : Span

namespace ShaderIR

/-- The definition that a reference from a world to a component binds to. -/
def bind? (ir : ShaderIR) (component world : String) : Option Nat :=
  match ir.index.find? component with
  | none => none
  | some worlds =>
    match worlds.find? world with
    | some id => some id
    | none =>
      (ir.pipeline.latest? (worlds.keys.filter (ir.pipeline.reaches · world))).bind worlds.find?

end ShaderIR

/-- The references of a definition, in source order. -/
def Definition.references (d : Definition) (isComponent : String → Bool) : List (String × Span) :=
  d.body.freeNames.filter fun n => isComponent n.1

namespace ShaderIR

/-- What the references of a definition bind to. -/
def targets (ir : ShaderIR) (isComponent : String → Bool) (d : Definition) : OrderedSet Nat :=
  .ofList ((d.references isComponent).filterMap fun n => ir.bind? n.1 d.world)

/-- Whether a survivor's dependencies are not what its references bind to. Order does not count. -/
def isStale (ir : ShaderIR) (isComponent : String → Bool) (d : Definition) : Bool :=
  ir.isSurvivor d && !(ir.targets isComponent d).agrees d.dependencies

def stale (ir : ShaderIR) (isComponent : String → Bool) : Bool :=
  ir.definitions.any (ir.isStale isComponent)

/-- Set the dependencies of the stale survivors to what their references bind to. -/
def relink (ir : ShaderIR) (isComponent : String → Bool) : ShaderIR :=
  { ir with
    definitions := ir.definitions.map fun d =>
      if ir.isStale isComponent d then { d with dependencies := ir.targets isComponent d } else d }

/-- The references of survivors that bind to nothing. -/
def dangling (ir : ShaderIR) (isComponent : String → Bool) : List Dangling :=
  (ir.definitions.filter ir.isSurvivor).flatMap fun d =>
    ((d.references isComponent).filter fun n => (ir.bind? n.1 d.world).isNone).map fun n =>
      ⟨d, n.1, n.2⟩

/-- Relinking leaves nothing stale: what a reference binds to does not depend on dependencies. -/
theorem stale_relink (ir : ShaderIR) (isComponent : String → Bool) :
    (ir.relink isComponent).stale isComponent = false := by
  simp only [stale, List.any_eq_false, relink, List.mem_map]
  rintro _ ⟨d, _, rfl⟩
  split
  · rename_i h
    simp only [isStale, isSurvivor, survivorId?, Bool.and_eq_true, beq_iff_eq] at h
    simp [isStale, isSurvivor, survivorId?, targets, Definition.references, bind?, h,
      OrderedSet.agrees_refl]
  · assumption

theorem length_relink (ir : ShaderIR) (isComponent : String → Bool) :
    (ir.relink isComponent).definitions.length = ir.definitions.length := by
  simp [relink]

end ShaderIR

end ShaderVariants
