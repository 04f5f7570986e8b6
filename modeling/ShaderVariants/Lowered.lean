import ShaderVariants.IR.Liveness
/-!
# Lowered shaders

A resolved shader laid out world by world, in an order in which every definition comes after those
it reads. Values read from another world are listed as imports, with the operator of the direct
connection if there is one.
-/
namespace ShaderVariants

structure LoweredImport where
  component : String
  world : String
  operator : Option String
deriving DecidableEq

structure LoweredDefinition where
  component : String
  alternate : Option String
  dataType : String
  isOutput : Bool
  imports : List LoweredImport
  body : Body

structure LoweredWorld where
  name : String
  definitions : List LoweredDefinition

structure LoweredShader where
  name : String
  pipeline : String
  worlds : List LoweredWorld

namespace ShaderIR

/-- The definitions, each after those it reads. -/
def evaluationOrder (ir : ShaderIR) : List Definition :=
  (Graph.postorder ir.reads ir.ids ir.ids).filterMap ir.definition?

/-- What a definition reads from other worlds. -/
def importsOf (ir : ShaderIR) (d : Definition) : List LoweredImport :=
  ((d.dependencies.toList.filterMap ir.definition?).filter fun dep => dep.world ≠ d.world).map
    fun dep => ⟨dep.component, dep.world, (ir.pipeline.operators dep.world d.world).head?⟩

def lowerDefinition (ir : ShaderIR) (d : Definition) : LoweredDefinition where
  component := d.component
  alternate := d.alternate
  dataType := d.dataType
  isOutput := d.isEntry
  imports := ir.importsOf d
  body := d.body

/-- Lay out the worlds that have definitions: declared ones in topological order, then others as
they come. -/
def lower (ir : ShaderIR) : LoweredShader :=
  let declared : OrderedMap String (List LoweredDefinition) :=
    .ofList (ir.pipeline.order.map fun w => (w, []))
  let filled := ir.evaluationOrder.foldl
    (fun worlds d => worlds.update d.world [] (· ++ [ir.lowerDefinition d])) declared
  { name := ir.shader
    pipeline := ir.pipeline.name
    worlds := (filled.filter fun _ ds => !ds.isEmpty).entries.map fun e => ⟨e.1, e.2⟩ }

end ShaderIR

def LoweredShader.world? (s : LoweredShader) (name : String) : Option LoweredWorld :=
  s.worlds.find? (·.name = name)

end ShaderVariants
