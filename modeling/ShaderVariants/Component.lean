import ShaderVariants.Attributes
import ShaderVariants.Body
import ShaderVariants.OrderedMap
import ShaderVariants.OrderedSet
/-!
# Components

A component is a named, typed value of a shader. It has implementations, each of which may occupy
some worlds of the pipeline. Which implementation ends up in which world is decided by the
declarations themselves, by a schedule, or by declaration order.
-/
namespace ShaderVariants

structure Implementation where
  /-- The name by which schedules ask for this implementation. -/
  alternate : Option String := none
  /-- The worlds it may occupy. -/
  worlds : OrderedSet String := ∅
  /-- The worlds that its declaration fixes. -/
  pinned : OrderedSet String := ∅
  /-- The worlds in which its value is an output. -/
  exported : OrderedSet String := ∅
  /-- Expanded at every use. -/
  isInline : Bool := false
  /-- Supplied from outside. -/
  isInput : Bool := false
  attributes : Attributes := ∅
  body : Body
  span : Span := {}

namespace Implementation

def occupy (i : Implementation) (world : String) : Implementation :=
  { i with worlds := i.worlds.insert world }

/-- Occupy a world and fix it. -/
def pinIn (i : Implementation) (world : String) : Implementation :=
  { i.occupy world with pinned := i.pinned.insert world }

/-- Occupy a world and make the value an output there. -/
def exportIn (i : Implementation) (world : String) : Implementation :=
  { i.occupy world with exported := i.exported.insert world }

/-- The alternate, with the unnamed one as the empty text. -/
def alternateName (i : Implementation) : String := i.alternate.getD ""

/-- Whether the declaration already decides about a world. -/
def fixes (i : Implementation) (world : String) : Bool :=
  i.pinned.contains world || i.isInline || i.exported.contains world || i.isInput

end Implementation

structure Component where
  name : String
  dataType : String
  /-- The choice names that schedules use for it, the canonical one first. -/
  aliases : List String := []
  /-- In declaration order. -/
  implementations : List Implementation := []
  /-- The worlds it may legally be placed in. -/
  constrained : OrderedSet String := ∅
  /-- The worlds that are decided. -/
  pinned : OrderedSet String := ∅
  /-- A parameter of the pipeline is not open to choice. -/
  isParam : Bool := false
  span : Span := {}

namespace Component

/-- Add an implementation, whose worlds become legal. -/
def implement (c : Component) (i : Implementation) : Component :=
  { c with
    constrained := c.constrained.insertAll i.worlds.toList
    implementations := c.implementations ++ [i] }

/-- Replace the legal worlds; pinned ones outside of them are dropped. -/
def constrainTo (c : Component) (worlds : List String) : Component :=
  let constrained := OrderedSet.ofList worlds
  { c with constrained, pinned := c.pinned.filter constrained.contains }

/-- Whether schedules are offered a choice. -/
def isChoosable (c : Component) : Bool := !c.aliases.isEmpty && !c.isParam

end Component

/-- Components in the order of their declaration, each under its own name. -/
structure Components extends OrderedMap String Component where
  named : ∀ e ∈ entries, e.2.name = e.1

namespace Components

theorem ext {m n : Components} (h : m.toOrderedMap = n.toOrderedMap) : m = n := by
  cases m; cases n; cases h; rfl

instance : EmptyCollection Components := ⟨⟨∅, nofun⟩⟩

/-- Add a component, or replace the one of its name where it stands. -/
def add (m : Components) (c : Component) : Components where
  toOrderedMap := m.insert c.name c
  named := by
    intro e he
    rcases OrderedMap.mem_entries_insert he with rfl | he
    · rfl
    · exact m.named e he

def ofList (l : List Component) : Components := l.foldl add ∅

/-- Change the component of that name, which keeps its name. -/
def revise (m : Components) (name : String) (f : Component → Component)
    (hf : ∀ c, (f c).name = c.name) : Components where
  toOrderedMap := m.modify name f
  named := by
    intro e he
    obtain ⟨d, hd, rfl⟩ := List.mem_map.mp he
    split
    · exact (hf d.2).trans (m.named d hd)
    · exact m.named d hd

/-- Change all components, which keep their names. -/
def reviseAll (m : Components) (f : Component → Component)
    (hf : ∀ c, (f c).name = c.name) : Components where
  toOrderedMap := m.map f
  named := by
    intro e he
    obtain ⟨d, hd, rfl⟩ := List.mem_map.mp he
    exact (hf d.2).trans (m.named d hd)

@[simp]
theorem toOrderedMap_revise (m : Components) (name : String) (f : Component → Component)
    (hf : ∀ c, (f c).name = c.name) : (m.revise name f hf).toOrderedMap = m.modify name f := rfl

@[simp]
theorem toOrderedMap_reviseAll (m : Components) (f : Component → Component)
    (hf : ∀ c, (f c).name = c.name) : (m.reviseAll f hf).toOrderedMap = m.map f := rfl

theorem name_of_find? {m : Components} {name : String} {c : Component}
    (h : m.find? name = some c) : c.name = name :=
  m.named (name, c) (OrderedMap.find?_eq_some_iff.mp h)

theorem find?_name {m : Components} {c : Component} (hc : c ∈ m.values) :
    m.find? c.name = some c := by
  obtain ⟨e, he, rfl⟩ := List.mem_map.mp hc
  exact OrderedMap.find?_eq_some_iff.mpr (m.named e he ▸ he)

theorem map_name_values (m : Components) :
    (m.values.map fun c => (c.name, c)) = m.entries := by
  have hentry : ∀ e ∈ m.entries, (e.2.name, e.2) = id e :=
    fun e he => Prod.ext (m.named e he) rfl
  rw [OrderedMap.values, List.map_map]
  exact (List.map_congr_left hentry).trans m.entries.map_id

theorem nodup_names (m : Components) : (m.values.map Component.name).Nodup := by
  have hkeys : m.values.map Component.name = m.entries.map Prod.fst := by
    rw [← m.map_name_values, List.map_map]
    rfl
  exact hkeys ▸ m.distinct

end Components

end ShaderVariants
