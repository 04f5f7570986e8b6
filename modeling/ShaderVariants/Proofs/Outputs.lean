import ShaderVariants.Proofs.Attributed

/-! # No output is lost or invented

Whether a slot has to be an output is a question about all implementations that may occupy it, not
about the one that holds it: a slot is promoted if any of its contestants is an entry, surviving
entries are live, and pruning removes nothing that is live. So the outputs of a variant are those
that the declarations and the attributes of the schedule call for (`entry_iff_required`). -/
namespace ShaderVariants

/-- The schedule adds the attribute that asks for outputs to the component of this name. -/
def Closure.Pins (closure : Closure) (schedule : Schedule) (name : String) : Prop :=
  ∃ choice ∈ schedule.attributes.entries,
    closure.components.aliasIndex.find? choice.1 = some name ∧ choice.2.pinned = true

theorem Closure.mem_added_iff {closure : Closure} {schedule : Schedule} {name : String} :
    "Pinned" ∈ (closure.added schedule.attributes name).map Prod.fst ↔
      closure.Pins schedule name := by
  simp only [added, Choosing.added, List.map_flatMap, List.mem_flatMap, Pins]
  refine exists_congr fun choice => and_congr_right fun _ => ?_
  split
  · rename_i halias
    rw [Attributes.pinned, OrderedMap.contains_iff]
    exact ⟨fun h => ⟨halias, h⟩, And.right⟩
  · rename_i halias
    exact ⟨fun h => absurd h List.not_mem_nil, fun h => absurd h.1 halias⟩

theorem Component.isOutput_attach {c : Component} {l : List (String × String)}
    {pipeline : Pipeline} {w : String} : (c.attach l).isOutput pipeline w = true ↔
      ∃ i ∈ c.implementations, i.worlds.contains w = true ∧ (i.exported.contains w = true ∨
        pipeline.isAbstract w = true ∧ (i.attributes.pinned = true ∨
          "Pinned" ∈ l.map Prod.fst ∨ pipeline.isPinned w = true)) := by
  have hpinned : ∀ a : Attributes, Attributes.pinned (a.insertAll l) = true ↔
      a.pinned = true ∨ "Pinned" ∈ l.map Prod.fst := by
    intro a
    rw [Attributes.pinned, OrderedMap.contains_iff, OrderedMap.mem_keys_insertAll,
      ← OrderedMap.contains_iff]
    rfl
  simp only [isOutput, attach, List.any_map, List.any_eq_true, Function.comp_apply,
    Implementation.isEntryIn, Bool.and_eq_true, Bool.or_eq_true, hpinned, or_assoc]

namespace Closure
variable {closure : Closure} {schedule : Schedule} {ir : ShaderIR}

/-- A variant has an entry in every slot that has to be an output, and in no other. -/
theorem entry_iff_isOutput {c : Component} (hc : c ∈ closure.components.values)
    (hir : (closure.variant schedule).ir = some ir) (w : String) :
    (∃ d ∈ ir.definitions, d.component = c.name ∧ d.world = w ∧ d.isEntry = true) ↔
      (c.attach (closure.added schedule.attributes c.name)).isOutput closure.pipeline w = true := by
  obtain ⟨hp, _, _⟩ := pruned_of_variant hir
  have hw := closure.wellFormed_placed schedule
  have hpipeline := closure.pipeline_placed schedule
  obtain ⟨first, hplaced⟩ := placedAt hc schedule.attributes
  have hplaced := hplaced schedule.choices
  constructor
  · intro hparts
    obtain ⟨_, hd, hcomponent, rfl, hentry⟩ := hparts
    obtain ⟨d, hlive, rfl⟩ := hp.mem_iff.mp hd
    obtain ⟨e, _, hdef⟩ := hplaced.eq_winner hw hlive.mem (hw.live_survivor hlive) hcomponent
    have hout := congrArg Definition.isEntry hdef
    rw [hpipeline] at hout
    exact hout.symm.trans hentry
  · intro hout
    have hentrants :
        (c.attach (closure.added schedule.attributes c.name)).entrants first w ≠ [] := by
      intro hnil
      rw [← Component.any_entrants _ _ first, hnil] at hout
      cases hout
    obtain ⟨e, he⟩ := Option.ne_none_iff_exists'.mp
      (mt Component.winner?_eq_none_iff.mp hentrants)
    -- whoever won the slot is the entry
    have hmem := hplaced.mem_winner he
    rw [hpipeline, hout] at hmem
    have hsurvivor := hplaced.survivorId?_eq w
    rw [he] at hsurvivor
    exact ⟨_, hp.mem_iff.mpr ⟨_, .entry hmem rfl (ShaderIR.isSurvivor_iff.mpr hsurvivor), rfl⟩,
      rfl, rfl, rfl⟩

/-- The outputs of a variant. A component has an entry in a world iff one of the implementations
that may occupy the world is exported there, or the world is abstract and an attribute asks for
outputs: one of the implementation, of the world, or one that the schedule adds. It does not matter
which implementation holds the slot. -/
theorem entry_iff_required (hir : (closure.variant schedule).ir = some ir) (name w : String) :
    (∃ d ∈ ir.definitions, d.component = name ∧ d.world = w ∧ d.isEntry = true) ↔
      ∃ c, closure.components.find? name = some c ∧
        ∃ i ∈ c.implementations, i.worlds.contains w = true ∧ (i.exported.contains w = true ∨
          closure.pipeline.isAbstract w = true ∧ (i.attributes.pinned = true ∨
            closure.Pins schedule name ∨ closure.pipeline.isPinned w = true)) := by
  have hrequired : ∀ c ∈ closure.components.values,
      (∃ d ∈ ir.definitions, d.component = c.name ∧ d.world = w ∧ d.isEntry = true) ↔
        ∃ i ∈ c.implementations, i.worlds.contains w = true ∧ (i.exported.contains w = true ∨
          closure.pipeline.isAbstract w = true ∧ (i.attributes.pinned = true ∨
            closure.Pins schedule c.name ∨ closure.pipeline.isPinned w = true)) := by
    intro c hc
    rw [entry_iff_isOutput hc hir, Component.isOutput_attach, mem_added_iff]
  constructor
  · intro hparts
    obtain ⟨d, hd, rfl, hentry⟩ := hparts
    obtain ⟨c, hc, hname⟩ := declared_of_variant hir hd
    rw [← hname]
    exact ⟨c, Components.find?_name hc, (hrequired c hc).mp ⟨d, hd, hname.symm, hentry⟩⟩
  · intro hparts
    obtain ⟨c, hc, himplementation⟩ := hparts
    obtain rfl := Components.name_of_find? hc
    exact (hrequired c (OrderedMap.mem_values_of_find? hc)).mpr himplementation

end Closure

/-- A color whose exported implementation loses its slot to the one declared after it. -/
def colorComponent : Component where
  name := "color"
  dataType := "vec4"
  aliases := ["color"]
  constrained := .ofList ["fs"]
  implementations :=
    [{ alternate := some "flat", worlds := .ofList ["fs"], exported := .ofList ["fs"],
       body := .expr (.literal "0" {}) },
      { alternate := some "textured", worlds := .ofList ["fs"],
        body := .expr (.literal "1" {}) }]

/-- A depth that no declaration calls an output. -/
def depthComponent : Component where
  name := "depth"
  dataType := "float"
  aliases := ["depth"]
  constrained := .ofList ["vs", "gbuffer"]
  implementations :=
    [{ worlds := .ofList ["vs", "gbuffer"], body := .expr (.literal "1" {}) }]

def deferredShader : Closure :=
  Closure.addComponent
    (Closure.addComponent
      { name := "deferred"
        pipeline :=
          { name := "deferred"
            worlds := .ofList [("vs", { name := "vs" }), ("fs", { name := "fs" }),
              ("gbuffer", { name := "gbuffer", isAbstract := true })]
            imports := [⟨"interpolate", "vs", "fs"⟩] } }
      colorComponent)
    depthComponent

/-- Asks for the depth as an output. -/
def deferredSchedule : Schedule where
  attributes := .ofList [("depth", .ofList [("Pinned", "true")])]

theorem variant_deferredShader : ∃ ir, (deferredShader.variant deferredSchedule).ir = some ir ∧
    ∃ d ∈ ir.definitions, d.component = "color" ∧ d.alternate = some "textured" := by
  have h : (deferredShader.variant deferredSchedule).ir = some ((deferredShader.placed
      deferredSchedule).relink deferredShader.components.contains).prune :=
    Closure.variant_of_round (Option.isNone_iff_eq_none.mp (by decide +kernel))
      (List.isEmpty_iff.mp (by decide +kernel))
  exact ⟨_, h, by decide +kernel⟩

/-- The color is an output although the implementation that exports it has lost the slot, and the
depth is one in the abstract world, where the schedule asks for it, and only there. -/
theorem entry_iff_required_deferredShader :
    ∃ ir, (deferredShader.variant deferredSchedule).ir = some ir ∧
      (∃ d ∈ ir.definitions, d.component = "color" ∧ d.alternate = some "textured") ∧
      (∃ d ∈ ir.definitions, d.component = "color" ∧ d.world = "fs" ∧ d.isEntry = true) ∧
      (∃ d ∈ ir.definitions, d.component = "depth" ∧ d.world = "gbuffer" ∧ d.isEntry = true) ∧
      ¬ ∃ d ∈ ir.definitions, d.component = "depth" ∧ d.world = "vs" ∧ d.isEntry = true := by
  obtain ⟨ir, hir, htextured⟩ := variant_deferredShader
  have hiff := Closure.entry_iff_required hir
  refine ⟨ir, hir, htextured, (hiff "color" "fs").mpr ?_, (hiff "depth" "gbuffer").mpr ?_,
    mt (hiff "depth" "vs").mp ?_⟩
  · exact ⟨colorComponent, rfl, _, List.mem_cons_self, by decide, Or.inl (by decide)⟩
  · exact ⟨depthComponent, rfl, _, List.mem_cons_self, by decide, Or.inr ⟨by decide, Or.inr (Or.inl
      ⟨_, List.mem_cons_self, by decide, by decide⟩)⟩⟩
  · intro hparts
    obtain ⟨c, hc, i, hi, _, hout⟩ := hparts
    obtain rfl : depthComponent = c := Option.some.inj hc
    obtain rfl := List.mem_singleton.mp hi
    rcases hout with hexported | ⟨habstract, _⟩
    · exact absurd hexported (by decide)
    · exact absurd habstract (by decide)

end ShaderVariants
