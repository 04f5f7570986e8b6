import ShaderVariants.Proofs.Layout
import ShaderVariants.Proofs.Placement
import ShaderVariants.Proofs.Upstream

/-! # Lowering loses nothing

Definitions go through a depth-first search and a map of buckets on their way into a lowered shader.
What comes out is each definition of the variant once, under the name of its own world
(`WellFormed.perm_laidOut`), with all it had (`Lowers`). Its imports are its dependencies in
other worlds, each with the newest operator that leads directly from there (`Carries`). Worlds that
the pipeline declares stand in its order, the others behind them. -/
namespace ShaderVariants

/-! ## The newest operator -/

namespace Pipeline

theorem head?_operators (p : Pipeline) (source target : String) :
    (p.operators source target).head? = (p.imports.reverse.find? fun i =>
      i.source = source ∧ i.target = target).map Import.operator := by
  rw [operators, ← List.map_reverse, List.head?_map, ← List.filter_reverse, List.head?_filter]

/-- The operator of the last import that leads directly from one world to the other. -/
theorem head?_operators_eq_some_iff {p : Pipeline} {source target operator : String} :
    (p.operators source target).head? = some operator ↔
      ∃ older newer, p.imports = older ++ ⟨operator, source, target⟩ :: newer ∧
        ∀ i ∈ newer, ¬ (i.source = source ∧ i.target = target) := by
  rw [head?_operators, Option.map_eq_some_iff]
  constructor
  · rintro ⟨i, hi, rfl⟩
    obtain ⟨hpass, newer, older, hsplit, hnewer⟩ := List.find?_eq_some_iff_append.mp hi
    obtain ⟨rfl, rfl⟩ := of_decide_eq_true hpass
    refine ⟨older.reverse, newer.reverse, ?_, fun j hj => ?_⟩
    · rw [← List.reverse_inj, hsplit]
      simp
    · simpa only [Bool.not_eq_true', decide_eq_false_iff_not] using
        hnewer j (List.mem_reverse.mp hj)
  · rintro ⟨older, newer, hsplit, hnewer⟩
    refine ⟨⟨operator, source, target⟩, List.find?_eq_some_iff_append.mpr ⟨by simp, ?_⟩, rfl⟩
    refine ⟨newer.reverse, older.reverse, by rw [hsplit]; simp, fun j hj => ?_⟩
    simpa only [Bool.not_eq_true', decide_eq_false_iff_not] using
      hnewer j (List.mem_reverse.mp hj)

theorem head?_operators_eq_none_iff {p : Pipeline} {source target : String} :
    (p.operators source target).head? = none ↔
      ∀ i ∈ p.imports, ¬ (i.source = source ∧ i.target = target) := by
  rw [head?_operators, Option.map_eq_none_iff, List.find?_eq_none]
  simp

/-- An import is of what one definition reads of another, with the newest operator that leads
directly from world to world, or with none if nothing leads there directly. -/
structure Carries (p : Pipeline) (d e : Definition) (i : LoweredImport) : Prop where
  component : i.component = e.component
  world : i.world = e.world
  newest : ∀ operator, i.operator = some operator ↔
    ∃ older newer, p.imports = older ++ ⟨operator, e.world, d.world⟩ :: newer ∧
      ∀ j ∈ newer, ¬ (j.source = e.world ∧ j.target = d.world)
  indirect : i.operator = none ↔
    ∀ j ∈ p.imports, ¬ (j.source = e.world ∧ j.target = d.world)

end Pipeline

/-- All lowered definitions, each with the name of the world that holds it. -/
def LoweredShader.placements (s : LoweredShader) : List (String × LoweredDefinition) :=
  s.worlds.flatMap fun W => W.definitions.map fun x => (W.name, x)

namespace ShaderIR
variable {ir : ShaderIR}

/-- What a definition is lowered to. -/
structure Lowers (ir : ShaderIR) (d : Definition) (x : LoweredDefinition) : Prop where
  component : x.component = d.component
  alternate : x.alternate = d.alternate
  dataType : x.dataType = d.dataType
  isOutput : x.isOutput = d.isEntry
  body : x.body = d.body
  /-- The dependencies are definitions, and those of other worlds are imported in order. -/
  imports : ∃ sources : List Definition, sources.map Definition.id = d.dependencies.toList ∧
    (∀ e ∈ sources, e ∈ ir.definitions) ∧
    List.Forall₂ (ir.pipeline.Carries d) (sources.filter (·.world ≠ d.world)) x.imports

theorem WellFormed.lowers (h : ir.WellFormed) {d : Definition}
    (hdeps : ∀ id ∈ d.dependencies.toList, id ∈ ir.ids) : ir.Lowers d (ir.lowerDefinition d) where
  component := rfl
  alternate := rfl
  dataType := rfl
  isOutput := rfl
  body := rfl
  imports := by
    refine ⟨d.dependencies.toList.filterMap ir.definition?, h.ids_filterMap_definition? hdeps,
      fun e he => ?_, List.forall₂_map_right_iff.mpr (List.forall₂_same.mpr fun e _ => ?_)⟩
    · obtain ⟨id, _, hid⟩ := List.mem_filterMap.mp he
      exact (h.definition?_iff.mp hid).1
    · exact ⟨rfl, rfl, fun _ => Pipeline.head?_operators_eq_some_iff,
        Pipeline.head?_operators_eq_none_iff⟩

/-! ## Each definition once -/

theorem names_lower (ir : ShaderIR) :
    (ir.lower.worlds.map LoweredWorld.name).Sublist ir.buckets.keys := by
  rw [worlds_lower, List.map_map]
  exact List.filter_sublist.map Prod.fst

theorem nodup_names_lower (ir : ShaderIR) : (ir.lower.worlds.map LoweredWorld.name).Nodup :=
  ir.buckets.nodup_keys.sublist ir.names_lower

theorem WellFormed.nodup_evaluationOrder (h : ir.WellFormed) : ir.evaluationOrder.Nodup := by
  refine List.Nodup.of_map Definition.id ?_
  rw [h.ids_evaluationOrder]
  exact Graph.nodup_postorder ir.reads ir.ids ir.ids

/-- The definitions as they stand in the lowered worlds. -/
def laidOut (ir : ShaderIR) : List Definition :=
  ir.lower.worlds.flatMap fun W => ir.evaluationOrder.filter (·.world = W.name)

theorem placements_lower (ir : ShaderIR) : ir.lower.placements =
    ir.laidOut.map fun d => (d.world, ir.lowerDefinition d) := by
  rw [LoweredShader.placements, laidOut, List.map_flatMap]
  refine List.flatMap_congr fun W hW => ?_
  rw [(mem_lower_worlds.mp hW).2, List.map_map]
  refine List.map_congr_left fun d hd => ?_
  rw [of_decide_eq_true (List.mem_filter.mp hd).2]
  rfl

/-- A definition can only be in the bucket of its own world. -/
theorem WellFormed.nodup_laidOut (h : ir.WellFormed) : ir.laidOut.Nodup := by
  refine List.nodup_flatMap.mpr ⟨fun W _ => h.nodup_evaluationOrder.filter _, ?_⟩
  refine (List.pairwise_map.mp ir.nodup_names_lower).imp fun {V W} hne d hd hd' => hne ?_
  have hV : d.world = V.name := of_decide_eq_true (List.mem_filter.mp hd).2
  have hW : d.world = W.name := of_decide_eq_true (List.mem_filter.mp hd').2
  exact hV.symm.trans hW

theorem WellFormed.perm_laidOut (h : ir.WellFormed) : ir.laidOut.Perm ir.definitions := by
  have hnodup : ir.definitions.Nodup := List.Nodup.of_map Definition.id h.nodup_ids
  refine (List.perm_ext_iff_of_nodup h.nodup_laidOut hnodup).mpr fun d => ?_
  constructor
  · intro hd
    obtain ⟨W, _, hd⟩ := List.mem_flatMap.mp hd
    exact h.mem_evaluationOrder.mp (List.mem_filter.mp hd).1
  · intro hd
    -- its world is not empty, so that it has a place in the layout
    obtain ⟨k, j, W, hW, hname, _⟩ := h.exists_at hd
    refine List.mem_flatMap.mpr ⟨W, List.mem_of_getElem? hW, List.mem_filter.mpr ⟨?_, ?_⟩⟩
    · exact h.mem_evaluationOrder.mpr hd
    · exact decide_eq_true hname.symm

/-! ## The order of the worlds -/

/-- Declared worlds come first, in the order of the pipeline. -/
theorem split_names_lower (hp : ir.pipeline.Orderable) :
    ∃ declared others, ir.lower.worlds.map LoweredWorld.name = declared ++ others ∧
      declared.Sublist ir.pipeline.order ∧
      (declared.Pairwise fun u w => ¬ ir.pipeline.Leads w u) ∧
      ∀ w ∈ others, w ∉ ir.pipeline.worlds.keys := by
  obtain ⟨undeclared, hkeys⟩ := ir.order_prefix
  have hnames := ir.names_lower
  rw [← hkeys] at hnames
  obtain ⟨declared, others, hsplit, hdeclared, hothers⟩ := List.sublist_append_iff.mp hnames
  refine ⟨declared, others, hsplit, hdeclared, ?_, fun w hw hdecl => ?_⟩
  · refine ((pairwise_idxOf ir.pipeline.nodup_order).sublist hdeclared).imp
      fun {u w} hlt hleads => ?_
    exact Nat.lt_asymm hlt (hp.idxOf_lt hleads)
  · have hdisjoint := List.nodup_append.mp (hkeys ▸ ir.buckets.nodup_keys)
    exact hdisjoint.2.2 w (hp.mem_order.mpr hdecl) w (hothers.subset hw) rfl

end ShaderIR

namespace Closure

/-- Lowering a variant conserves its definitions: in some order they are what the lowered worlds
hold, each in its own world and with all it had. The worlds are distinct, none is empty, and those
that the pipeline declares come first, producers before consumers. -/
theorem lower_conserves {closure : Closure} {schedule : Schedule} {ir : ShaderIR} {name : String}
    {edits : List Pipeline.Edit} (hp : closure.pipeline = edits.foldl Pipeline.edit { name })
    (hir : (closure.variant schedule).ir = some ir) :
    let names := ir.lower.worlds.map LoweredWorld.name
    ir.pipeline = closure.pipeline ∧
    (∃ l : List Definition, l.Perm ir.definitions ∧
      List.Forall₂ (fun d y => y.1 = d.world ∧ ir.Lowers d y.2) l ir.lower.placements) ∧
    names.Nodup ∧
    (∀ W ∈ ir.lower.worlds, W.definitions ≠ []) ∧
    ∃ declared others, names = declared ++ others ∧
      declared.Sublist ir.pipeline.order ∧
      (declared.Pairwise fun u w => ¬ ir.pipeline.Leads w u) ∧
      ∀ w ∈ others, w ∉ ir.pipeline.worlds.keys := by
  obtain ⟨hpruned, _, _⟩ := pruned_of_variant hir
  have hplaced := closure.wellFormed_placed schedule
  have hw := hpruned.wellFormed
  have hpipeline : ir.pipeline = closure.pipeline :=
    hpruned.pipeline.trans (ShaderIR.pipeline_ofComponents _ _ _ _)
  have horderable : ir.pipeline.Orderable := by
    rw [hpipeline, hp]
    exact Pipeline.orderable_edits name edits
  refine ⟨hpipeline, ⟨ir.laidOut, hw.perm_laidOut, ?_⟩, ir.nodup_names_lower,
    fun W hW => (ShaderIR.mem_lower_worlds.mp hW).1, ShaderIR.split_names_lower horderable⟩
  rw [ShaderIR.placements_lower]
  refine List.forall₂_map_right_iff.mpr (List.forall₂_same.mpr fun d hd => ⟨rfl, ?_⟩)
  refine hw.lowers fun id hid => ?_
  obtain ⟨e, he, rfl, _⟩ := hpruned.dependency hplaced (hw.perm_laidOut.mem_iff.mp hd) hid
  exact ShaderIR.mem_ids.mpr ⟨e, he, rfl⟩

end Closure

/-- Two operators lead from the earlier stage to the later, which is declared first. -/
def bakeEdits : List Pipeline.Edit :=
  [.declare { name := "fs" }, .declare { name := "vs" }, .connect "interpolate" "vs" "fs",
    .connect "flat" "vs" "fs"]

/-- A color that reads the light of the earlier stage, and a probe in a world that the pipeline does
not declare. -/
def bakedShader : Closure where
  name := "baked"
  pipeline := bakeEdits.foldl Pipeline.edit { name := "bake" }
  components := .ofList
    [{ name := "probe", dataType := "vec4", implementations := [{
        worlds := .ofList ["lab"], exported := .ofList ["lab"], body := callOf [] }] },
      { name := "color", dataType := "vec4", implementations := [{
        worlds := .ofList ["fs"], exported := .ofList ["fs"], body := callOf ["light"] }] },
      { name := "light", dataType := "vec3", implementations := [{
        worlds := .ofList ["vs"], body := callOf [] }] }]

theorem lower_conserves_bakedShader :
    ∃ ir, (bakedShader.variant {}).ir = some ir ∧
      ir.lower.worlds.map LoweredWorld.name = ["vs", "fs", "lab"] ∧
      ir.lower.placements.map (fun y => (y.1, y.2.component, y.2.imports)) =
        [("vs", "light", []), ("fs", "color", [⟨"light", "vs", some "flat"⟩]),
          ("lab", "probe", [])] ∧
      ∃ l : List Definition, l.Perm ir.definitions ∧
        List.Forall₂ (fun d y => y.1 = d.world ∧ ir.Lowers d y.2) l ir.lower.placements := by
  have hir : (bakedShader.variant {}).ir =
      some ((bakedShader.placed {}).relink bakedShader.components.contains).prune :=
    Closure.variant_of_round (Option.isNone_iff_eq_none.mp (by decide +kernel))
      (List.isEmpty_iff.mp (by decide +kernel))
  have hp : bakedShader.pipeline = bakeEdits.foldl Pipeline.edit { name := "bake" } := rfl
  exact ⟨_, hir, by decide +kernel, by decide +kernel, (Closure.lower_conserves hp hir).2.1⟩

end ShaderVariants
