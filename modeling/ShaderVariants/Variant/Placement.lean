import ShaderVariants.Component
import ShaderVariants.IR.Basic
/-!
# Placing implementations in worlds

Every implementation gets a definition in each world that it may occupy. The definitions of one
component in one world contest a slot: a later one takes it from an earlier one, unless the earlier
one was asked for. A slot is an entry if any of its contestants is, so that no output is lost to
the contest.
-/
namespace ShaderVariants

/-- Who holds a (component, world) slot. -/
structure Slot where
  holder : Nat
  /-- The holder was asked for by a schedule. -/
  isAsked : Bool
  /-- Some contestant is an entry. -/
  isEntry : Bool
deriving DecidableEq

/-- A newcomer contests the slot. -/
def Slot.contest (slot new : Slot) : Slot :=
  let entry := slot.isEntry || new.isEntry
  if slot.isAsked then { slot with isEntry := entry } else { new with isEntry := entry }

namespace Implementation

/-- The value is an output where it is exported, and in an abstract world where the implementation
or the world is pinned by an attribute. -/
def isEntryIn (i : Implementation) (pipeline : Pipeline) (world : String) : Bool :=
  i.exported.contains world ||
    (pipeline.isAbstract world && (i.attributes.pinned || pipeline.isPinned world))

end Implementation

namespace Component

def define (c : Component) (i : Implementation) (pipeline : Pipeline) (world : String) :
    Definition where
  component := c.name
  world := world
  alternate := i.alternate
  dataType := c.dataType
  attributes := i.attributes
  body := i.body
  isEntry := i.isEntryIn pipeline world
  span := i.span

/-- The definitions of a component, implementation by implementation and world by world, each with
whether it was asked for. -/
def candidates (c : Component) (pipeline : Pipeline) (asked : List (String × Nat)) :
    List (Definition × Bool) :=
  c.implementations.zipIdx.flatMap fun i =>
    i.1.worlds.toList.map fun world =>
      (c.define i.1 pipeline world, asked.contains (c.name, i.2))

/-- The slots of a component by world, after all candidates have contested them. Ids count from
`first`. -/
def slots (candidates : List (Definition × Bool)) (first : Nat) : OrderedMap String Slot :=
  (candidates.zipIdx first).foldl
    (fun slots ((d, isAsked), id) =>
      let new : Slot := ⟨id, isAsked, d.isEntry⟩
      slots.insert d.world ((slots.find? d.world).elim new (·.contest new)))
    ∅

end Component

namespace ShaderIR

/-- Install the holder of a slot. -/
def award (ir : ShaderIR) (slot : Slot) : ShaderIR :=
  let ir := ir.install slot.holder
  if slot.isEntry then ir.modify slot.holder fun d => { d with isEntry := true } else ir

/-- Add all definitions of a component and install the survivors. -/
def place (asked : List (String × Nat)) (ir : ShaderIR) (c : Component) : ShaderIR :=
  let candidates := c.candidates ir.pipeline asked
  let slots := Component.slots candidates ir.nextId
  slots.values.foldl award (candidates.foldl (fun ir d => ir.add d.1) ir)

/-- The representation of a shader before references are bound. -/
def ofComponents (shader : String) (pipeline : Pipeline) (components : Components)
    (asked : List (String × Nat)) : ShaderIR :=
  components.values.foldl (place asked) { shader, pipeline }

end ShaderIR

end ShaderVariants
