import ShaderVariants.Proofs.SelectedSlots

/-! # What a schedule makes of components

A choice or an override changes the component that it is aimed at and no other, so what becomes of a
component follows from what is aimed at it (`Choosing.find?_run`). Of all that is decided, placement
reads the attributes that are added and the implementations that are asked for, and nothing else:
pins have no say. So a closure is placed as if its components had been declared with the added
attributes (`Closure.placed_eq`), and what happens in a slot can be read off the declared component
(`Closure.placedAt`). -/
namespace ShaderVariants

namespace Component

/-- The component without its pins. -/
def unpinned (c : Component) : Component := { c with pinned := ∅ }

theorem name_unpinned (c : Component) : c.unpinned.name = c.name := rfl

/-- The component with attributes added to all its implementations, one after the other. -/
def attach (c : Component) (attributes : List (String × String)) : Component :=
  { c with
    implementations := c.implementations.map fun i =>
      { i with attributes := i.attributes.insertAll attributes } }

theorem name_attach (c : Component) (attributes : List (String × String)) :
    (c.attach attributes).name = c.name := rfl

theorem attach_nil (c : Component) : c.attach [] = c := by
  have hsame : (c.implementations.map fun i =>
      { i with attributes := i.attributes.insertAll [] }) = c.implementations :=
    map_eq_self fun _ _ => rfl
  rw [attach, hsame]

theorem attach_append (c : Component) (l l' : List (String × String)) :
    c.attach (l ++ l') = (c.attach l).attach l' := by
  simp [attach, OrderedMap.insertAll, Function.comp_def]

theorem foldl_overrideAttributes (c : Component) (overrides : List Attributes) :
    overrides.foldl overrideAttributes c = c.attach (overrides.flatMap (·.entries)) := by
  induction overrides generalizing c with
  | nil => exact c.attach_nil.symm
  | cons attributes overrides ih =>
    rw [List.foldl_cons, ih, List.flatMap_cons, attach_append]
    rfl

/-- Selections change pins and nothing else. -/
theorem foldl_pinSelected (c : Component) (choices : List (List Selection)) :
    choices.foldl pinSelected c =
      { c with pinned := (choices.foldl pinSelected c).pinned } :=
  List.foldlRecOn (motive := fun c' : Component => c' = { c with pinned := c'.pinned })
    choices _ rfl fun c' hc' selections _ => by
      rw [hc']
      rfl

theorem places_attach (c : Component) (l : List (String × String)) :
    (c.attach l).places = c.places.map fun p =>
      (({ p.1.1 with attributes := p.1.1.attributes.insertAll l }, p.1.2), p.2) := by
  rw [places, attach, List.zipIdx_map, List.flatMap_map, places, List.map_flatMap]
  refine List.flatMap_congr fun i _ => ?_
  rw [List.map_map]
  rfl

/-- Added attributes do not change who holds a slot. -/
theorem winner?_attach (c : Component) (l : List (String × String)) (asked : List (String × Nat))
    (first : Nat) (w : String) :
    (c.attach l).winner? asked first w = (c.winner? asked first w).map fun e =>
      (({ e.1.1 with attributes := e.1.1.attributes.insertAll l }, e.1.2), e.2) := by
  have hentrants : (c.attach l).entrants first w = (c.entrants first w).map fun e =>
      (({ e.1.1 with attributes := e.1.1.attributes.insertAll l }, e.1.2), e.2) := by
    rw [entrants, places_attach, List.zipIdx_map, List.filter_map, List.map_map, entrants,
      List.map_map]
    rfl
  rw [winner?, hentrants, List.find?_map, List.getLast?_map, ← Option.map_or]
  rfl

end Component

namespace Components

def unpinned (m : Components) : Components := m.reviseAll Component.unpinned Component.name_unpinned

/-- The components with attributes added to each, by its name. -/
def attach (m : Components) (added : String → List (String × String)) : Components :=
  m.reviseAll (fun c => c.attach (added c.name)) fun c => c.name_attach (added c.name)

theorem keys_unpinned (m : Components) : m.unpinned.keys = m.keys := m.keys_map Component.unpinned

theorem find?_unpinned (m : Components) (name : String) :
    m.unpinned.find? name = (m.find? name).map Component.unpinned :=
  m.find?_map Component.unpinned name

theorem keys_attach (m : Components) (added : String → List (String × String)) :
    (m.attach added).keys = m.keys :=
  m.keys_map fun c => c.attach (added c.name)

theorem find?_attach (m : Components) (added : String → List (String × String)) (name : String) :
    (m.attach added).find? name = (m.find? name).map fun c => c.attach (added c.name) :=
  m.find?_map (fun c => c.attach (added c.name)) name

theorem values_attach (m : Components) (added : String → List (String × String)) :
    (m.attach added).values = m.values.map fun c => c.attach (added c.name) :=
  m.values_map fun c => c.attach (added c.name)

theorem mem_values_attach {m : Components} {added : String → List (String × String)}
    {c : Component} :
    c ∈ (m.attach added).values ↔ ∃ d ∈ m.values, d.attach (added d.name) = c := by
  rw [values_attach, List.mem_map]

/-- Pins can be dropped before attributes are added. -/
theorem unpinned_attach (m : Components) (added : String → List (String × String)) :
    (m.attach added).unpinned = m.unpinned.attach added := by
  refine ext ?_
  rw [unpinned, attach, attach, unpinned]
  simp only [toOrderedMap_reviseAll, OrderedMap.map_map]
  rfl

theorem attach_attach (m : Components) (f g : String → List (String × String)) :
    (m.attach f).attach g = m.attach fun name => f name ++ g name := by
  refine ext ?_
  rw [attach, attach, attach]
  simp only [toOrderedMap_reviseAll, OrderedMap.map_map]
  exact OrderedMap.map_congr fun e _ => (e.2.attach_append _ _).symm

end Components

/-- What some overrides add to the component of a name, in order. -/
def Choosing.added (aliases : OrderedMap String String) (overrides : List (String × Attributes))
    (name : String) : List (String × String) :=
  overrides.flatMap fun choice =>
    if aliases.find? choice.1 = some name then choice.2.entries else []

/-- What the attributes of a schedule add to the component of a name. -/
def Closure.added (closure : Closure) (attributes : OrderedMap String Attributes)
    (name : String) : List (String × String) :=
  Choosing.added closure.components.aliasIndex attributes.entries name

/-- The components of a closure with what the attributes of a schedule add to them. -/
def Closure.attributed (closure : Closure) (attributes : OrderedMap String Attributes) :
    Components :=
  closure.components.attach (closure.added attributes)

/-! ## Choosing adds these attributes -/

namespace Choosing

/-- What some entries say about the component of a name. -/
def aimed {α : Type} (target : String → Option String) (name : String)
    (entries : List (String × α)) : List α :=
  (entries.filter fun e => target e.1 = some name).map Prod.snd

theorem aimed_cons {α : Type} (target : String → Option String) (name : String) (e : String × α)
    (entries : List (String × α)) :
    aimed target name (e :: entries) =
      if target e.1 = some name then e.2 :: aimed target name entries
      else aimed target name entries := by
  rw [aimed, List.filter_cons]
  by_cases haim : target e.1 = some name
  · simp [haim, aimed]
  · simp [haim, aimed]

theorem added_eq (aliases : OrderedMap String String) (overrides : List (String × Attributes))
    (name : String) :
    added aliases overrides name =
      (aimed aliases.find? name overrides).flatMap (·.entries) := by
  induction overrides with
  | nil => rfl
  | cons choice overrides ih =>
    rw [added, List.flatMap_cons, ← added, ih, aimed_cons]
    split <;> rfl

/-- Whatever a choice does to its target, it does it to the component whose name it stands for. -/
theorem find?_modify_target (s : Choosing) (aliases : OrderedMap String String) (choice : String)
    (f : Component → Component) (name : String) :
    ((s.target? aliases choice).elim s.components.toOrderedMap
      fun t => s.components.modify t.1 f).find? name =
      if aliases.find? choice = some name then (s.components.find? name).map f
      else s.components.find? name := by
  unfold target?
  cases aliases.find? choice with
  | none => simp
  | some n =>
    cases hc : s.components.find? n with
    | none =>
      by_cases hn : n = name
      · subst hn
        simp [hc]
      · simp [hc, hn]
    | some c => simp [hc, OrderedMap.find?_modify]

theorem find?_choose (s : Choosing) (shader : String) (aliases : OrderedMap String String)
    (choice : String × List Selection) (name : String) :
    (s.choose shader aliases choice).components.find? name =
      if aliases.find? choice.1 = some name then
        (s.components.find? name).map (·.pinSelected choice.2)
      else s.components.find? name := by
  rw [← find?_modify_target, choose]
  cases s.target? aliases choice.1 <;> rfl

theorem find?_override (s : Choosing) (aliases : OrderedMap String String)
    (choice : String × Attributes) (name : String) :
    (s.override aliases choice).components.find? name =
      if aliases.find? choice.1 = some name then
        (s.components.find? name).map (·.overrideAttributes choice.2)
      else s.components.find? name := by
  rw [← find?_modify_target, override]
  cases s.target? aliases choice.1 <;> rfl

/-- Entries that each change their target change a component by those that are aimed at it. -/
theorem find?_foldl {α : Type} {step : Choosing → String × α → Choosing}
    {f : Component → α → Component} {target : String → Option String} {name : String}
    (hstep : ∀ s e, (step s e).components.find? name =
      if target e.1 = some name then (s.components.find? name).map (f · e.2)
      else s.components.find? name) (entries : List (String × α)) (s : Choosing) :
    (entries.foldl step s).components.find? name =
      (s.components.find? name).map fun c => (aimed target name entries).foldl f c := by
  induction entries generalizing s with
  | nil => exact Option.map_id'.symm
  | cons e entries ih =>
    rw [List.foldl_cons, ih, hstep, aimed_cons]
    split
    · rw [Option.map_map]
      rfl
    · rfl

/-- What becomes of each component: pins as the choices that are aimed at it say, and all the
attributes that are added. -/
theorem find?_run (closure : Closure) (schedule : Schedule) (name : String) :
    (run closure schedule).components.find? name = (closure.components.find? name).map fun c =>
      ((aimed closure.components.aliasIndex.find? name schedule.choices.entries).foldl
        Component.pinSelected c.pinFixed).attach (closure.added schedule.attributes name) := by
  rw [run, find?_foldl (find?_override · _ · name), find?_foldl (find?_choose · _ _ · name),
    Components.toOrderedMap_reviseAll, OrderedMap.find?_map, Option.map_map, Option.map_map]
  simp only [Component.foldl_overrideAttributes, Closure.added, added_eq]
  rfl

/-- But for pins, each component in the end is the declared one with the attributes added. -/
theorem find?_unpinned_run (closure : Closure) (schedule : Schedule) (name : String) :
    (run closure schedule).components.unpinned.find? name =
      (closure.components.find? name).map fun c =>
        (c.attach (closure.added schedule.attributes name)).unpinned := by
  rw [Components.find?_unpinned, find?_run, Option.map_map]
  refine congrArg (Option.map · _) (funext fun c => ?_)
  rw [Function.comp_apply, Component.foldl_pinSelected]
  rfl

end Choosing

/-! ## Placement reads nothing else -/

theorem ShaderIR.ofComponents_unpinned (shader : String) (pipeline : Pipeline)
    (components : Components) (asked : List (String × Nat)) :
    ofComponents shader pipeline components.unpinned asked =
      ofComponents shader pipeline components asked := by
  rw [ofComponents, Components.unpinned, Components.toOrderedMap_reviseAll, OrderedMap.values_map,
    List.foldl_map]
  rfl

/-- Survivors are of components that were placed. -/
theorem ShaderIR.declared_of_survivor {shader : String} {pipeline : Pipeline}
    {components : Components} {asked : List (String × Nat)} {n w : String} {id : Nat}
    (h : (ofComponents shader pipeline components asked).survivorId? n w = some id) :
    ∃ c ∈ components.values, c.name = n := by
  have hplace : ∀ (cs : List Component) (ir : ShaderIR), ir.WellFormed →
      (cs.foldl (place asked) ir).survivorId? n w = some id →
      ir.survivorId? n w = some id ∨ ∃ c ∈ cs, c.name = n := by
    intro cs
    induction cs with
    | nil => intro ir _ hs; exact Or.inl hs
    | cons c cs ih =>
      intro ir hir hs
      rcases ih _ (hir.place asked c) hs with hs | ⟨c', hc', hn⟩
      · rw [hir.survivorId?_place] at hs
        split at hs
        · rename_i hn
          exact Or.inr ⟨c, List.mem_cons_self, hn.symm⟩
        · exact Or.inl hs
      · exact Or.inr ⟨c', List.mem_cons_of_mem c hc', hn⟩
  refine (hplace _ _ (wellFormed_empty shader pipeline) h).resolve_left fun hs => ?_
  simp [survivorId?] at hs

namespace Closure
variable {closure : Closure} {schedule : Schedule} {c : Component}

theorem pipeline_placed (closure : Closure) (schedule : Schedule) :
    (closure.placed schedule).pipeline = closure.pipeline :=
  ShaderIR.pipeline_ofComponents _ _ _ _

theorem unpinned_run (closure : Closure) (schedule : Schedule) :
    (Choosing.run closure schedule).components.unpinned =
      (closure.attributed schedule.attributes).unpinned := by
  refine Components.ext (OrderedMap.ext_find? ?_ fun name => ?_)
  · rw [Components.keys_unpinned, Choosing.keys_run, Components.keys_unpinned, attributed,
      Components.keys_attach]
  · rw [Choosing.find?_unpinned_run, Components.find?_unpinned, attributed,
      Components.find?_attach, Option.map_map]
    refine Option.map_congr fun c hc => ?_
    rw [Function.comp_apply, Components.name_of_find? hc]

theorem placed_eq (closure : Closure) (schedule : Schedule) :
    closure.placed schedule = .ofComponents closure.name closure.pipeline
      (closure.attributed schedule.attributes) (Choosing.run closure schedule).asked := by
  rw [placed, ← ShaderIR.ofComponents_unpinned, unpinned_run, ShaderIR.ofComponents_unpinned]

/-- What becomes of a component in its slots, by what was declared, added and asked for. The ids of
its definitions do not depend on the choices of the schedule. -/
theorem placedAt (hc : c ∈ closure.components.values) (attributes : OrderedMap String Attributes) :
    ∃ first, ∀ choices, (closure.placed ⟨choices, attributes⟩).PlacedAt
      (Choosing.run closure ⟨choices, attributes⟩).asked
      (c.attach (closure.added attributes c.name)) first := by
  have hmem : c.attach (closure.added attributes c.name) ∈
      (closure.attributed attributes).values := Components.mem_values_attach.mpr ⟨c, hc, rfl⟩
  obtain ⟨first, hplaced⟩ := ShaderIR.placedAt_ofComponents closure.name closure.pipeline hmem
  refine ⟨first, fun choices => ?_⟩
  rw [placed_eq]
  exact hplaced _

theorem declared_of_survivor {n w : String} {id : Nat}
    (hs : (closure.placed schedule).survivorId? n w = some id) :
    ∃ c ∈ closure.components.values, c.name = n := by
  rw [placed_eq] at hs
  obtain ⟨c', hc', rfl⟩ := ShaderIR.declared_of_survivor hs
  obtain ⟨c, hc, rfl⟩ := Components.mem_values_attach.mp hc'
  exact ⟨c, hc, rfl⟩

theorem declared_of_variant {ir : ShaderIR} (hir : (closure.variant schedule).ir = some ir)
    {d : Definition} (hd : d ∈ ir.definitions) :
    ∃ c ∈ closure.components.values, c.name = d.component := by
  obtain ⟨hp, _, _⟩ := pruned_of_variant hir
  obtain ⟨d, hlive, rfl⟩ := hp.mem_iff.mp hd
  have hs := (closure.wellFormed_placed schedule).live_survivor hlive
  exact declared_of_survivor (ShaderIR.isSurvivor_iff.mp hs)

end Closure

end ShaderVariants
