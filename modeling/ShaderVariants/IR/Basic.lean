import ShaderVariants.Attributes
import ShaderVariants.Body
import ShaderVariants.OrderedSet
import ShaderVariants.Pipeline
/-!
# The per-world representation of a shader

A definition is one implementation of a component placed in one world. Every (component, world)
slot has at most one survivor among its definitions, and the index says which. Ids are given in
order and never again. They are natural numbers, so they do not run out as ids of 32 bits would.
-/
namespace ShaderVariants

structure Definition where
  id : Nat := 0
  component : String
  world : String
  alternate : Option String := none
  dataType : String
  attributes : Attributes := ∅
  body : Body
  /-- The world has to output the value. -/
  isEntry : Bool := false
  /-- The ids of the definitions it reads, in the order of first use. -/
  dependencies : OrderedSet Nat := ∅
  span : Span := {}

structure ShaderIR where
  shader : String
  pipeline : Pipeline
  /-- In the order of their ids. -/
  definitions : List Definition := []
  /-- The survivor of each slot, by component and world. -/
  index : OrderedMap String (OrderedMap String Nat) := ∅
  nextId : Nat := 0

namespace ShaderIR

def definition? (ir : ShaderIR) (id : Nat) : Option Definition :=
  ir.definitions.find? (·.id = id)

/-- Store a definition under the next id. It is no survivor yet. -/
def add (ir : ShaderIR) (d : Definition) : ShaderIR :=
  { ir with definitions := ir.definitions ++ [{ d with id := ir.nextId }], nextId := ir.nextId + 1 }

/-- Make a definition the survivor of its slot; an id that is gone changes nothing. -/
def install (ir : ShaderIR) (id : Nat) : ShaderIR :=
  match ir.definition? id with
  | none => ir
  | some d => { ir with index := ir.index.update d.component ∅ (·.insert d.world id) }

def modify (ir : ShaderIR) (id : Nat) (f : Definition → Definition) : ShaderIR :=
  { ir with definitions := ir.definitions.map fun d => if d.id = id then f d else d }

def survivorId? (ir : ShaderIR) (component world : String) : Option Nat :=
  (ir.index.find? component).bind (·.find? world)

def survivor? (ir : ShaderIR) (component world : String) : Option Definition :=
  (ir.survivorId? component world).bind ir.definition?

def isSurvivor (ir : ShaderIR) (d : Definition) : Bool :=
  ir.survivorId? d.component d.world == some d.id

def entries (ir : ShaderIR) : List Definition := ir.definitions.filter (·.isEntry)

/-- The survivors of one world. -/
def inWorld (ir : ShaderIR) (world : String) : List Definition :=
  ir.definitions.filter fun d => d.world = world && ir.isSurvivor d

/-- Remove the definitions that pass the test, their slots, and components left without one. -/
def remove (ir : ShaderIR) (p : Definition → Bool) : ShaderIR :=
  let kept := ir.definitions.filter fun d => !p d
  { ir with
    definitions := kept
    index := (ir.index.map fun worlds => worlds.filter fun _ id => kept.any (·.id = id)).filter
      fun _ worlds => !worlds.isEmpty }

end ShaderIR

end ShaderVariants
