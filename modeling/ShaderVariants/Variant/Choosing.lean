import ShaderVariants.Closure
import ShaderVariants.Schedule.Basic
/-!
# What declarations and schedules decide

Declarations pin the worlds they fix. A schedule choice that names a component replaces its pinned
worlds by the legal ones among those selected, and marks the implementations that it asks for. An
illegal selection is reported and otherwise ignored; choices that name nothing are ignored too.
-/
namespace ShaderVariants

namespace Component

/-- Pin the legal worlds that the implementations fix. -/
def pinFixed (c : Component) : Component :=
  let fixed := c.implementations.flatMap fun i => i.worlds.toList.filter i.fixes
  { c with pinned := c.pinned.insertAll (fixed.filter c.constrained.contains) }

theorem name_pinFixed (c : Component) : c.pinFixed.name = c.name := rfl

def isLegal (c : Component) (s : Selection) : Bool := c.constrained.contains s.world

/-- Pin exactly the legal worlds among the selected ones. -/
def pinSelected (c : Component) (selections : List Selection) : Component :=
  { c with pinned := .ofList ((selections.filter c.isLegal).map Selection.world) }

theorem name_pinSelected (c : Component) (selections : List Selection) :
    (c.pinSelected selections).name = c.name := rfl

/-- The implementations that legal selections ask for, by position. -/
def selected (c : Component) (selections : List Selection) : List Nat :=
  (selections.filter c.isLegal).flatMap fun s =>
    (c.implementations.zipIdx.filter fun i =>
      i.1.alternateName = s.alternateName && i.1.worlds.contains s.world).map Prod.snd

def overrideAttributes (c : Component) (attributes : Attributes) : Component :=
  { c with
    implementations := c.implementations.map fun i =>
      { i with attributes := i.attributes.insertAll attributes.entries } }

theorem name_overrideAttributes (c : Component) (attributes : Attributes) :
    (c.overrideAttributes attributes).name = c.name := rfl

end Component

/-- The component that each choice name stands for; of two with the same name the later. -/
def Components.aliasIndex (components : Components) : OrderedMap String String :=
  .ofList (components.values.flatMap fun c => c.aliases.map fun a => (a, c.name))

/-- The components as decided so far, the implementations asked for, and the complaints. -/
structure Choosing where
  components : Components
  /-- Component name and position of the implementation. -/
  asked : List (String × Nat) := []
  diagnostics : Diagnostics := []

namespace Choosing

/-- The component that a choice stands for, with its name. -/
def target? (s : Choosing) (aliases : OrderedMap String String) (choice : String) :
    Option (String × Component) :=
  (aliases.find? choice).bind fun name => (s.components.find? name).map fun c => (name, c)

def complain (shader choice : String) (c : Component) (selections : List Selection) :
    Diagnostics :=
  (selections.filter fun s => !c.isLegal s).map fun s =>
    .errorIn shader s.span (.illegalWorld s.world choice)

/-- Apply one choice of a schedule. -/
def choose (shader : String) (aliases : OrderedMap String String) (s : Choosing)
    (choice : String × List Selection) : Choosing :=
  match s.target? aliases choice.1 with
  | none => s
  | some (name, c) =>
    { components := s.components.revise name (·.pinSelected choice.2) (·.name_pinSelected choice.2)
      asked := s.asked ++ (c.selected choice.2).map fun i => (c.name, i)
      diagnostics := s.diagnostics ++ complain shader choice.1 c choice.2 }

/-- Apply the attributes that a schedule gives to one choice. -/
def override (aliases : OrderedMap String String) (s : Choosing)
    (choice : String × Attributes) : Choosing :=
  match s.target? aliases choice.1 with
  | none => s
  | some (name, _) =>
    { s with
      components := s.components.revise name (·.overrideAttributes choice.2)
        (·.name_overrideAttributes choice.2) }

/-- All that declarations and the schedule decide about a closure. -/
def run (closure : Closure) (schedule : Schedule) : Choosing :=
  let aliases := closure.components.aliasIndex
  let start : Choosing :=
    { components := closure.components.reviseAll Component.pinFixed Component.name_pinFixed }
  let chosen := schedule.choices.entries.foldl (choose closure.name aliases) start
  schedule.attributes.entries.foldl (override aliases) chosen

end Choosing

end ShaderVariants
