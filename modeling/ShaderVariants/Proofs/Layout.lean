import ShaderVariants.Lowered
import ShaderVariants.Proofs.PipelineOrder
import ShaderVariants.Proofs.VariantMeaning

/-! # The layout of a lowered shader

Lowering sorts the definitions twice: by depth-first search into an order in which each comes after
those it reads, and then into one list for each world, the worlds in the order of the pipeline. The
second sort keeps the first one's order inside a world, and between worlds a definition reads only
from worlds that come earlier (`lower_reads_earlier`). A world that the pipeline does not declare
comes behind all that it does, and nothing is read from there by other worlds. -/
namespace ShaderVariants
open ShaderVariants.Graph Relation

/-! ## Positions along a rank -/

/-- In a list of increasing rank, positions and ranks say the same. -/
theorem rank_lt_iff {α : Type} {rank : α → Nat} {l : List α}
    (hl : l.Pairwise fun x y => rank x < rank y) {i j : Nat} {x y : α} (hx : l[i]? = some x)
    (hy : l[j]? = some y) : i < j ↔ rank x < rank y := by
  obtain ⟨hi, rfl⟩ := List.getElem?_eq_some_iff.mp hx
  obtain ⟨hj, rfl⟩ := List.getElem?_eq_some_iff.mp hy
  have hlt := List.pairwise_iff_getElem.mp hl
  constructor
  · intro h
    exact hlt i j hi hj h
  · intro h
    rcases Nat.lt_trichotomy i j with hij | rfl | hij
    · exact hij
    · exact absurd h (Nat.lt_irrefl _)
    · exact absurd (hlt j i hj hi hij) (Nat.lt_asymm h)

namespace ShaderIR
variable {ir : ShaderIR}

/-! ## The evaluation order -/

/-- Ids that all have a definition are looked up one by one. -/
theorem WellFormed.ids_filterMap_definition? (h : ir.WellFormed) {l : List Nat}
    (hl : ∀ id ∈ l, id ∈ ir.ids) : (l.filterMap ir.definition?).map Definition.id = l := by
  induction l with
  | nil => rfl
  | cons id l ih =>
    obtain ⟨d, hd, hid⟩ := mem_ids.mp (hl id List.mem_cons_self)
    have hfind := h.definition?_iff.mpr ⟨hd, hid⟩
    rw [List.filterMap_cons, hfind, List.map_cons, hid,
      ih fun id' hid' => hl id' (List.mem_cons_of_mem id hid')]

theorem WellFormed.ids_evaluationOrder (h : ir.WellFormed) :
    ir.evaluationOrder.map Definition.id = postorder ir.reads ir.ids ir.ids := by
  exact h.ids_filterMap_definition? fun _ hid => mem_of_mem_postorder hid

theorem WellFormed.mem_evaluationOrder (h : ir.WellFormed) {d : Definition} :
    d ∈ ir.evaluationOrder ↔ d ∈ ir.definitions := by
  rw [evaluationOrder, List.mem_filterMap]
  constructor
  · intro hm
    obtain ⟨id, _, hd⟩ := hm
    exact (h.definition?_iff.mp hd).1
  · intro hd
    have hid : d.id ∈ ir.ids := mem_ids.mpr ⟨d, hd, rfl⟩
    exact ⟨d.id, mem_postorder.mpr ⟨d.id, hid, hid, .refl⟩,
      h.definition?_iff.mpr ⟨hd, rfl⟩⟩

/-- The place of a definition in the evaluation order. -/
def rank (ir : ShaderIR) (d : Definition) : Nat := (postorder ir.reads ir.ids ir.ids).idxOf d.id

theorem WellFormed.pairwise_rank (h : ir.WellFormed) :
    ir.evaluationOrder.Pairwise fun d e => ir.rank d < ir.rank e := by
  have hp := pairwise_idxOf (nodup_postorder ir.reads ir.ids ir.ids)
  rw [← h.ids_evaluationOrder, List.pairwise_map] at hp
  rw [h.ids_evaluationOrder] at hp
  exact hp

theorem WellFormed.rank_lt (h : ir.WellFormed) (hacyclic : Acyclic ir.reads ir.ids)
    {d e : Definition} (hd : d ∈ ir.definitions) (he : e ∈ ir.definitions)
    (hdep : e.id ∈ d.dependencies.toList) : ir.rank e < ir.rank d := by
  have hedge : Edge ir.reads ir.ids d.id e.id := by
    refine ⟨?_, mem_ids.mpr ⟨e, he, rfl⟩⟩
    rw [reads, h.definition?_iff.mpr ⟨hd, rfl⟩]
    exact hdep
  have hid : d.id ∈ postorder ir.reads ir.ids ir.ids := by
    rw [← h.ids_evaluationOrder]
    exact List.mem_map_of_mem (h.mem_evaluationOrder.mpr hd)
  exact ((postorder_settled hacyclic ir.ids).path hid (.single hedge)).2

/-! ## Worlds and their definitions -/

/-- The definitions of each world; a declared world may have none. -/
def buckets (ir : ShaderIR) : OrderedMap String (List LoweredDefinition) :=
  ir.evaluationOrder.foldl
    (fun worlds d => worlds.update d.world [] (· ++ [ir.lowerDefinition d]))
    (.ofList (ir.pipeline.order.map fun w => (w, [])))

theorem worlds_lower (ir : ShaderIR) : ir.lower.worlds =
    (ir.buckets.filter fun _ ds => !ds.isEmpty).entries.map fun e => ⟨e.1, e.2⟩ :=
  rfl

theorem entries_declared (ir : ShaderIR) :
    (OrderedMap.ofList (ir.pipeline.order.map fun w =>
      (w, ([] : List LoweredDefinition)))).entries =
        ir.pipeline.order.map fun w => (w, []) := by
  refine OrderedMap.entries_ofList ?_
  rw [List.map_map]
  exact (List.map_id ir.pipeline.order).symm ▸ ir.pipeline.nodup_order

theorem order_prefix (ir : ShaderIR) : ir.pipeline.order <+: ir.buckets.keys := by
  have h := OrderedMap.keys_foldl_update Definition.world []
    (fun d => (· ++ [ir.lowerDefinition d])) ir.evaluationOrder
    (.ofList (ir.pipeline.order.map fun w => (w, [])))
  rw [OrderedMap.keys, entries_declared, List.map_map] at h
  exact (List.map_id ir.pipeline.order) ▸ h

theorem getD_buckets (ir : ShaderIR) (w : String) : (ir.buckets.find? w).getD [] =
    (ir.evaluationOrder.filter (·.world = w)).map ir.lowerDefinition := by
  have hdeclared : ((OrderedMap.ofList (ir.pipeline.order.map fun w =>
      (w, ([] : List LoweredDefinition)))).find? w).getD [] = [] := by
    cases hf : (OrderedMap.ofList (ir.pipeline.order.map fun w =>
        (w, ([] : List LoweredDefinition)))).find? w with
    | none => rfl
    | some ds =>
      have hm := OrderedMap.find?_eq_some_iff.mp hf
      rw [entries_declared] at hm
      obtain ⟨_, _, he⟩ := List.mem_map.mp hm
      exact (congrArg Prod.snd he).symm
  rw [buckets, OrderedMap.getD_foldl_append, hdeclared, List.nil_append]

/-- A lowered world holds all definitions of the world, and there is at least one. -/
theorem mem_lower_worlds {W : LoweredWorld} : W ∈ ir.lower.worlds ↔ W.definitions ≠ [] ∧
    W.definitions = (ir.evaluationOrder.filter (·.world = W.name)).map ir.lowerDefinition := by
  have hentry : W ∈ ir.lower.worlds ↔
      W.definitions ≠ [] ∧ ir.buckets.find? W.name = some W.definitions := by
    rw [worlds_lower, List.mem_map, OrderedMap.find?_eq_some_iff]
    constructor
    · intro h
      obtain ⟨e, he, rfl⟩ := h
      obtain ⟨hm, hne⟩ := List.mem_filter.mp he
      exact ⟨by simpa using hne, hm⟩
    · intro h
      exact ⟨(W.name, W.definitions), List.mem_filter.mpr ⟨h.2, by simpa using h.1⟩, rfl⟩
  rw [hentry, ← getD_buckets]
  refine and_congr_right fun hne => ?_
  constructor
  · intro h
    rw [h]
    rfl
  · intro h
    cases hf : ir.buckets.find? W.name with
    | none =>
      rw [hf] at h
      exact absurd h hne
    | some ds =>
      rw [hf] at h
      exact congrArg some h.symm

/-- The place of a world among all that have a list. -/
def worldRank (ir : ShaderIR) (w : String) : Nat := ir.buckets.keys.idxOf w

theorem pairwise_worldRank (ir : ShaderIR) :
    ir.lower.worlds.Pairwise fun V W => ir.worldRank V.name < ir.worldRank W.name := by
  rw [worlds_lower, List.pairwise_map]
  have hkeys := List.pairwise_map.mp (pairwise_idxOf ir.buckets.nodup_keys)
  exact hkeys.sublist List.filter_sublist

theorem worldRank_lt {u w : String} (hu : u ∈ ir.pipeline.order)
    (hr : ir.pipeline.reaches u w = true) (hne : u ≠ w) : ir.worldRank u < ir.worldRank w := by
  obtain ⟨others, hkeys⟩ := ir.order_prefix
  rw [worldRank, worldRank, ← hkeys, List.idxOf_append_of_mem hu]
  by_cases hw : w ∈ ir.pipeline.order
  · rw [List.idxOf_append_of_mem hw]
    exact (Pipeline.idxOf_lt_of_reaches hr hne hw).2
  · -- an undeclared world comes behind all declared ones
    rw [List.idxOf_append_of_notMem hw]
    have := List.idxOf_lt_length_of_mem hu
    omega

end ShaderIR

/-- The `j`th definition of the `k`th world. -/
def LoweredShader.At (s : LoweredShader) (k j : Nat) (world : String) (x : LoweredDefinition) :
    Prop :=
  ∃ W, s.worlds[k]? = some W ∧ W.name = world ∧ W.definitions[j]? = some x

namespace ShaderIR
variable {ir : ShaderIR}

theorem WellFormed.exists_at (h : ir.WellFormed) {d : Definition} (hd : d ∈ ir.definitions) :
    ∃ k j, ir.lower.At k j d.world (ir.lowerDefinition d) := by
  have hmem : ir.lowerDefinition d ∈
      (ir.evaluationOrder.filter (·.world = d.world)).map ir.lowerDefinition := by
    refine List.mem_map_of_mem (List.mem_filter.mpr ⟨h.mem_evaluationOrder.mpr hd, ?_⟩)
    simp
  have hworld : (⟨d.world, _⟩ : LoweredWorld) ∈ ir.lower.worlds :=
    mem_lower_worlds.mpr ⟨List.ne_nil_of_mem hmem, rfl⟩
  obtain ⟨k, hk⟩ := List.mem_iff_getElem?.mp hworld
  obtain ⟨j, hj⟩ := List.mem_iff_getElem?.mp hmem
  exact ⟨k, j, _, hk, rfl, hj⟩

/-- Survivors of one world differ in their components, so a lowered definition is found only at the
place of the definition it was lowered from. -/
theorem WellFormed.of_at (h : ir.WellFormed) (hs : ∀ d ∈ ir.definitions, ir.isSurvivor d = true)
    {d : Definition} (hd : d ∈ ir.definitions) {k j : Nat}
    (hat : ir.lower.At k j d.world (ir.lowerDefinition d)) :
    (∃ W, ir.lower.worlds[k]? = some W ∧ W.name = d.world) ∧
      (ir.evaluationOrder.filter (·.world = d.world))[j]? = some d := by
  obtain ⟨W, hk, hname, hj⟩ := hat
  refine ⟨⟨W, hk, hname⟩, ?_⟩
  rw [(mem_lower_worlds.mp (List.mem_of_getElem? hk)).2, hname, List.getElem?_map] at hj
  obtain ⟨e, he, hlow⟩ := Option.map_eq_some_iff.mp hj
  obtain ⟨hmem, hworld⟩ := List.mem_filter.mp (List.mem_of_getElem? he)
  have hemem := h.mem_evaluationOrder.mp hmem
  have hcomponent : e.component = d.component := congrArg LoweredDefinition.component hlow
  have heslot := isSurvivor_iff.mp (hs e hemem)
  rw [hcomponent, of_decide_eq_true hworld, isSurvivor_iff.mp (hs d hd)] at heslot
  rw [he, h.eq_of_id hemem hd (Option.some.inj heslot).symm]

variable {pruned : ShaderIR} {isComponent : String → Bool}

/-- Where the dependencies of a resolved definition are: in its own world, or in a declared one that
reaches it. -/
theorem Pruned.dependency (hp : ir.Pruned isComponent pruned) (h : ir.WellFormed) {d : Definition}
    (hd : d ∈ pruned.definitions) {id : Nat} (hid : id ∈ d.dependencies.toList) :
    ∃ e ∈ pruned.definitions, e.id = id ∧
      (e.world = d.world ∨
        e.world ∈ pruned.pipeline.order ∧ pruned.pipeline.reaches e.world d.world = true) := by
  obtain ⟨d₀, hlive, rfl⟩ := hp.mem_iff.mp hd
  obtain ⟨n, hn, hbind⟩ := mem_targets.mp hid
  obtain ⟨u, hslot, hsource⟩ := bind?_source hbind
  obtain ⟨e₀, he₀, rfl, _, rfl⟩ := h.indexed _ u id hslot
  have helive : ir.Live isComponent e₀ := hlive.bound ⟨he₀, n, hn, hbind⟩
  refine ⟨ir.linked isComponent e₀, hp.mem_iff.mpr ⟨e₀, helive, rfl⟩, rfl, ?_⟩
  rw [hp.pipeline]
  exact hsource

theorem Pruned.acyclic (hp : ir.Pruned isComponent pruned) (h : ir.WellFormed)
    (hc : ¬ ir.Circular isComponent) : Acyclic pruned.reads pruned.ids := by
  intro id hpath
  obtain ⟨d, e, hd, hbinds, hdid, heid⟩ := (hp.path_iff h).mp hpath
  obtain rfl := h.eq_of_id hd.mem (hd.path hbinds).mem (hdid.trans heid.symm)
  exact hc ⟨d, hd, hbinds⟩

end ShaderIR

/-- The layout of a variant is an order of evaluation. Every definition has a place in its world,
and each of its dependencies is a definition that stands earlier: in the same world at an earlier
place, or in an earlier world. -/
theorem Closure.lower_reads_earlier {closure : Closure} {schedule : Schedule} {ir : ShaderIR}
    (h : (closure.variant schedule).ir = some ir) {d : Definition} (hd : d ∈ ir.definitions) :
    (∃ k j, ir.lower.At k j d.world (ir.lowerDefinition d)) ∧
    ∀ id ∈ d.dependencies.toList, ∃ e ∈ ir.definitions, e.id = id ∧
      ∀ k j k' j', ir.lower.At k j d.world (ir.lowerDefinition d) →
        ir.lower.At k' j' e.world (ir.lowerDefinition e) →
        (e.world = d.world → k' = k ∧ j' < j) ∧ (e.world ≠ d.world → k' < k) := by
  obtain ⟨hp, hcircular, _⟩ := pruned_of_variant h
  have hplaced := closure.wellFormed_placed schedule
  have hw := hp.wellFormed
  have hs : ∀ d ∈ ir.definitions, ir.isSurvivor d = true := fun d hd =>
    hp.isSurvivor_of_mem hplaced hd
  refine ⟨hw.exists_at hd, fun id hid => ?_⟩
  obtain ⟨e, he, rfl, hsource⟩ := hp.dependency hplaced hd hid
  refine ⟨e, he, rfl, fun k j k' j' hat hat' => ?_⟩
  obtain ⟨⟨W, hk, hname⟩, hj⟩ := hw.of_at hs hd hat
  obtain ⟨⟨W', hk', hname'⟩, hj'⟩ := hw.of_at hs he hat'
  have hworlds := ir.pairwise_worldRank
  constructor
  · intro hsame
    have hrank := hw.rank_lt (hp.acyclic hplaced hcircular) hd he hid
    rw [hsame] at hname' hj'
    have hbucket := hw.pairwise_rank.sublist
      (List.filter_sublist (p := fun x => decide (x.world = d.world)))
    refine ⟨?_, (rank_lt_iff hbucket hj' hj).mpr hrank⟩
    have hlt := rank_lt_iff hworlds hk' hk
    have hgt := rank_lt_iff hworlds hk hk'
    rw [hname, hname'] at hlt hgt
    omega
  · intro hother
    obtain ⟨horder, hreaches⟩ := hsource.resolve_left hother
    rw [rank_lt_iff hworlds hk' hk, hname, hname']
    exact ShaderIR.worldRank_lt horder hreaches hother

/-- The body of a call with the given arguments. -/
def callOf (names : List String) : Body := .expr (.call "f" (names.map (.name · {})) {})

/-- A color that reads a shade of its own stage and, as the shade does, a light of an earlier one.
The later stage is declared first. -/
def litShader : Closure where
  name := "lit"
  pipeline :=
    { name := "forward"
      worlds := .ofList [("fs", { name := "fs" }), ("vs", { name := "vs" })]
      imports := [⟨"interpolate", "vs", "fs"⟩] }
  components := .ofList
    [{ name := "color", dataType := "vec4", implementations := [{
        worlds := .ofList ["fs"], exported := .ofList ["fs"],
        body := callOf ["shade", "light"] }] },
      { name := "shade", dataType := "vec4", implementations := [{
        worlds := .ofList ["fs"], body := callOf ["light"] }] },
      { name := "light", dataType := "vec3", implementations := [{
        worlds := .ofList ["vs"], body := callOf [] }] }]

theorem lower_reads_earlier_litShader :
    ∃ ir, (litShader.variant {}).ir = some ir ∧
      ∃ d ∈ ir.definitions, d.component = "color" ∧ d.dependencies.toList = [1, 2] ∧
        (∃ k j, ir.lower.At k j d.world (ir.lowerDefinition d)) ∧
        ∀ id ∈ d.dependencies.toList, ∃ e ∈ ir.definitions, e.id = id ∧
          ∀ k j k' j', ir.lower.At k j d.world (ir.lowerDefinition d) →
            ir.lower.At k' j' e.world (ir.lowerDefinition e) →
            (e.world = d.world → k' = k ∧ j' < j) ∧ (e.world ≠ d.world → k' < k) := by
  have h : (litShader.variant {}).ir =
      some ((litShader.placed {}).relink litShader.components.contains).prune :=
    Closure.variant_of_round (Option.isNone_iff_eq_none.mp (by decide +kernel))
      (List.isEmpty_iff.mp (by decide +kernel))
  have hcolor : (((litShader.placed {}).relink litShader.components.contains).prune.definitions.any
      fun d => d.component = "color" && d.dependencies.toList = [1, 2]) = true := by
    decide +kernel
  obtain ⟨d, hd, hcolor⟩ := List.any_eq_true.mp hcolor
  obtain ⟨hname, hdeps⟩ := Bool.and_eq_true_iff.mp hcolor
  exact ⟨_, h, d, hd, of_decide_eq_true hname, of_decide_eq_true hdeps,
    Closure.lower_reads_earlier h hd⟩

end ShaderVariants
