import ShaderVariants.Attributes
import ShaderVariants.Graph
import ShaderVariants.Span
/-!
# Pipelines

A pipeline is a set of worlds, the stages and targets that code can run in, and the import
operators that carry values from one world to another. Imports are refused when they would close
a cycle, so every pipeline has a topological order. Of all those orders `order` is the one that
releases the earliest declared world first. Whether or not a change is accepted, the outcome comes
with the pipeline as it then is.
-/
namespace ShaderVariants

structure World where
  name : String
  /-- A boundary of the pipeline, whose pinned values have to be produced. -/
  isAbstract : Bool := false
  attributes : Attributes := ∅
  span : Span := {}

/-- Whether the world asks for its values as outputs. -/
def World.isPinned (w : World) : Bool := w.attributes.pinned

structure Import where
  operator : String
  source : String
  target : String
deriving DecidableEq

inductive PipelineError where
  | duplicateWorld (pipeline world : String)
  | unknownWorld (pipeline world : String)
  | cyclicImport (pipeline source target : String)
deriving DecidableEq

def PipelineError.message : PipelineError → String
  | duplicateWorld pipeline world =>
    "world '" ++ world ++ "' is declared twice in pipeline '" ++ pipeline ++ "'"
  | unknownWorld pipeline world => "pipeline '" ++ pipeline ++ "' has no world '" ++ world ++ "'"
  | cyclicImport pipeline source target =>
    "import from '" ++ source ++ "' to '" ++ target ++ "' makes pipeline '" ++ pipeline ++
      "' cyclic"

structure Pipeline where
  name : String
  /-- In declaration order. -/
  worlds : OrderedMap String World := ∅
  /-- In the order in which they were added; two worlds may have several. -/
  imports : List Import := []

namespace Pipeline

def world? (p : Pipeline) (name : String) : Option World := p.worlds.find? name

def isAbstract (p : Pipeline) (name : String) : Bool := (p.world? name).any (·.isAbstract)

def isPinned (p : Pipeline) (name : String) : Bool := (p.world? name).any World.isPinned

/-- The worlds that a world has imports into. -/
def feeds (p : Pipeline) (world : String) : List String :=
  (p.imports.filter (·.source = world)).map Import.target

/-- Whether values computed in one world can flow into another. A declared world reaches itself,
an undeclared one neither reaches nor is reached. -/
def reaches (p : Pipeline) (source target : String) : Bool :=
  (Graph.postorder p.feeds p.worlds.keys [source]).contains target

def declare (p : Pipeline) (world : World) : Except PipelineError Unit × Pipeline :=
  if p.worlds.contains world.name then (.error (.duplicateWorld p.name world.name), p)
  else (.ok (), { p with worlds := p.worlds.insert world.name world })

/-- Add an import, unless one of its worlds is unknown or values could then flow in a circle. -/
def connect (p : Pipeline) (operator source target : String) :
    Except PipelineError Unit × Pipeline :=
  if !p.worlds.contains source then (.error (.unknownWorld p.name source), p)
  else if !p.worlds.contains target then (.error (.unknownWorld p.name target), p)
  else if p.reaches target source then (.error (.cyclicImport p.name source target), p)
  else (.ok (), { p with imports := p.imports ++ [⟨operator, source, target⟩] })

/-- No import into the world comes from one that still waits. -/
def isReady (imports : List Import) (waiting : List String) (world : String) : Bool :=
  imports.all fun i => i.target != world || !waiting.contains i.source

/-- Release the waiting worlds one by one, always the first that is ready. -/
def release (imports : List Import) (waiting : List String) : List String :=
  match _h : waiting.find? (isReady imports waiting) with
  | none => []
  | some world => world :: release imports (waiting.erase world)
termination_by waiting.length
decreasing_by exact Graph.length_erase_lt (List.mem_of_find?_eq_some _h)

/-- The worlds in topological order, producers before consumers. -/
def order (p : Pipeline) : List String := release p.imports p.worlds.keys

def rank? (p : Pipeline) (world : String) : Option Nat := p.order.idxOf? world

/-- The last of some worlds in topological order. -/
def latest? (p : Pipeline) (worlds : List String) : Option String :=
  (p.order.filter worlds.contains).getLast?

/-- The operators that lead directly from one world to another, the newest first. -/
def operators (p : Pipeline) (source target : String) : List String :=
  ((p.imports.filter fun i => i.source = source ∧ i.target = target).map Import.operator).reverse

end Pipeline

end ShaderVariants
