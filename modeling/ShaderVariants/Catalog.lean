import ShaderVariants.Closure
import ShaderVariants.Schedule.Basic
/-!
# The catalog of open choices

For every component that is open to choice, the catalog lists the placements that a schedule can
select, and the world that the resolved variant settled on.
-/
namespace ShaderVariants

structure Choice where
  /-- The canonical choice name of the component. -/
  name : String
  /-- Distinct placements; none of them has been written anywhere. -/
  options : List Selection := []
  /-- `none` if the shader is not resolved. -/
  defaultWorld : Option String := none
deriving DecidableEq

/-- The legal placements of the implementations. -/
def Component.options (c : Component) : List Selection :=
  (OrderedSet.ofList (c.implementations.flatMap fun i =>
    (i.worlds.toList.filter c.constrained.contains).map fun world =>
      ({ world, alternate := i.alternate } : Selection))).toList

namespace Closure

/-- The latest world that holds a definition of the component. -/
def defaultWorld? (closure : Closure) (component : String) : Option String :=
  (closure.ir.bind (·.index.find? component)).bind fun worlds =>
    closure.pipeline.latest? worlds.keys

def choices (closure : Closure) : List Choice :=
  (closure.components.values.filter Component.isChoosable).filterMap fun c =>
    c.aliases.head?.map fun name => ⟨name, c.options, closure.defaultWorld? c.name⟩

end Closure

structure Catalog where
  shaders : OrderedMap String (List Choice) := ∅
deriving DecidableEq

namespace Catalog

/-- The choices of all closures, or of the one that is asked for. -/
def ofClosures (closures : List Closure) (symbol : Option String) : Catalog :=
  let wanted := closures.filter fun c => symbol.all (· == c.name)
  ⟨.ofList (wanted.map fun c => (c.name, c.choices))⟩

def choices (c : Catalog) : List Choice := c.shaders.values.flatten

/-- A schedule that selects every option. -/
def schedule (c : Catalog) : Schedule :=
  c.choices.foldl (fun s choice => choice.options.foldl (fun s o => s.select choice.name [o]) s) {}

/-- A schedule that selects the default worlds, with unnamed alternates. -/
def defaultSchedule (c : Catalog) : Schedule :=
  c.choices.foldl
    (fun s choice => choice.defaultWorld.elim s fun world => s.select choice.name [{ world }]) {}

end Catalog

end ShaderVariants
