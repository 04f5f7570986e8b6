import ShaderVariants.Proofs.Binding
import ShaderVariants.Proofs.Search

/-! # Relinking and pruning reach the least live set at once

`Live` is the least set of definitions that holds the surviving entries and all that live bodies
refer to, by the bindings of the representation as it was placed. One round of relinking and pruning
keeps exactly that set (`pruned_relink`). What is pruned was no target of what stays, so a second
round finds every reference bound as before (`Pruned.relink_eq`) and every definition live
(`Pruned.prune_eq`), and the loop of `settle` is one round (`settle_eq`). -/
namespace ShaderVariants.ShaderIR
open Relation ShaderVariants.Graph

variable {ir : ShaderIR} {isComponent : String → Bool}

/-- A reference of the body of `d` binds to `e`. -/
def Binds (ir : ShaderIR) (isComponent : String → Bool) (d e : Definition) : Prop :=
  e ∈ ir.definitions ∧ ∃ n ∈ d.references isComponent, ir.bind? n.1 d.world = some e.id

/-- The least set with the surviving entries and whatever its members bind to. -/
inductive Live (ir : ShaderIR) (isComponent : String → Bool) : Definition → Prop
  | entry {d} : d ∈ ir.definitions → d.isEntry = true → ir.isSurvivor d = true →
      Live ir isComponent d
  | bound {d e} : Live ir isComponent d → ir.Binds isComponent d e → Live ir isComponent e

open Classical in
/-- The live definitions, in the order of their ids. -/
noncomputable def liveDefinitions (ir : ShaderIR) (isComponent : String → Bool) :
    List Definition :=
  ir.definitions.filter fun d => ir.Live isComponent d

/-- The definition with its references as dependencies. -/
def linked (ir : ShaderIR) (isComponent : String → Bool) (d : Definition) : Definition :=
  { d with dependencies := ir.targets isComponent d }

theorem Live.mem {d : Definition} (h : ir.Live isComponent d) : d ∈ ir.definitions := by
  cases h with
  | entry hd _ _ => exact hd
  | bound _ he => exact he.1

theorem mem_liveDefinitions {d : Definition} :
    d ∈ ir.liveDefinitions isComponent ↔ ir.Live isComponent d := by
  simp only [liveDefinitions, List.mem_filter, decide_eq_true_eq]
  exact ⟨And.right, fun h => ⟨h.mem, h⟩⟩

/-- A reference binds to a survivor. -/
theorem WellFormed.bind?_survivor (h : ir.WellFormed) {c w : String} {id : Nat}
    (hb : ir.bind? c w = some id) :
    ∃ e ∈ ir.definitions, e.id = id ∧ ir.isSurvivor e = true := by
  obtain ⟨u, hu, _⟩ := bind?_source hb
  obtain ⟨e, he, hid, _, _, hs⟩ := h.survivor hu
  exact ⟨e, he, hid, hs⟩

theorem WellFormed.binds_survivor (h : ir.WellFormed) {d e : Definition}
    (hb : ir.Binds isComponent d e) : ir.isSurvivor e = true := by
  obtain ⟨he, _, _, hbind⟩ := hb
  obtain ⟨e', he', hid, hs⟩ := h.bind?_survivor hbind
  rwa [h.eq_of_id he he' hid.symm]

theorem WellFormed.live_survivor (h : ir.WellFormed) {d : Definition}
    (hl : ir.Live isComponent d) : ir.isSurvivor d = true := by
  cases hl with
  | entry _ _ hs => exact hs
  | bound _ hb => exact h.binds_survivor hb

theorem mem_targets {d : Definition} {id : Nat} :
    id ∈ (ir.targets isComponent d).toList ↔
      ∃ n ∈ d.references isComponent, ir.bind? n.1 d.world = some id := by
  rw [targets, ← OrderedSet.mem_def, OrderedSet.mem_ofList, List.mem_filterMap]

/-! ## Pruning any representation -/

theorem mem_live_of_not_hasDead (h : ¬ ir.hasDead = true) {d : Definition}
    (hd : d ∈ ir.definitions) : d.id ∈ ir.live := by
  rw [Bool.not_eq_true, hasDead, List.any_eq_false] at h
  simpa using h d hd

theorem definitions_prune (ir : ShaderIR) :
    ir.prune.definitions = ir.definitions.filter fun d => ir.live.contains d.id := by
  unfold prune
  split
  · simp [remove]
  · rename_i h
    rw [eq_comm, List.filter_eq_self]
    intro d hd
    exact List.contains_iff_mem.mpr (mem_live_of_not_hasDead h hd)

theorem mem_of_mem_prune {d : Definition} (h : d ∈ ir.prune.definitions) : d ∈ ir.definitions := by
  rw [definitions_prune] at h
  exact (List.mem_filter.mp h).1

theorem WellFormed.prune (h : ir.WellFormed) : ir.prune.WellFormed := by
  unfold ShaderIR.prune
  split
  · exact h.remove _
  · exact h

/-- An index that names nothing but what is there loses exactly the slots of what is dead. -/
theorem survivorId?_prune (hindex : ∀ c w id, ir.survivorId? c w = some id → id ∈ ir.ids)
    (c w : String) (id : Nat) :
    ir.prune.survivorId? c w = some id ↔ ir.survivorId? c w = some id ∧ id ∈ ir.live := by
  unfold prune
  split
  · rw [survivorId?_remove]
    refine and_congr_right fun hs => ?_
    obtain ⟨d, hd, hid⟩ := mem_ids.mp (hindex c w id hs)
    constructor
    · intro hparts
      obtain ⟨e, _, hlive, rfl⟩ := hparts
      simpa using hlive
    · intro hlive
      exact ⟨d, hd, by simpa [hid] using hlive, hid⟩
  · rename_i hdead
    refine ⟨fun hs => ⟨hs, ?_⟩, And.left⟩
    obtain ⟨d, hd, rfl⟩ := mem_ids.mp (hindex c w id hs)
    exact mem_live_of_not_hasDead hdead hd

theorem pipeline_prune (ir : ShaderIR) : ir.prune.pipeline = ir.pipeline := by
  unfold prune
  split <;> rfl

theorem shader_prune (ir : ShaderIR) : ir.prune.shader = ir.shader := by
  unfold prune
  split <;> rfl

/-! ## The first round -/

/-- Relinking what was never linked gives every survivor its targets. -/
theorem Unlinked.definitions_relink (hu : ir.Unlinked) (isComponent : String → Bool) :
    (ir.relink isComponent).definitions =
      ir.definitions.map fun d => if ir.isSurvivor d then ir.linked isComponent d else d := by
  refine List.map_congr_left fun d hd => ?_
  by_cases hs : ir.isSurvivor d = true
  · rw [if_pos hs]
    split
    · rfl
    · rename_i hstale
      have hag : (ir.targets isComponent d).agrees d.dependencies = true := by
        simpa [isStale, hs] using hstale
      have hempty := OrderedSet.eq_empty_of_agrees hag (hu d hd)
      show d = { d with dependencies := ir.targets isComponent d }
      rw [hempty, ← hu d hd]
  · rw [if_neg hs, if_neg (by simp [isStale, hs])]

theorem ids_relink (ir : ShaderIR) (isComponent : String → Bool) :
    (ir.relink isComponent).ids = ir.ids := by
  simp only [ids, relink, List.map_map]
  refine List.map_congr_left fun d _ => ?_
  simp only [Function.comp_apply]
  split <;> rfl

/-- The edges that the first search follows are the bindings of survivors. -/
theorem edge_relink (h : ir.WellFormed) (hu : ir.Unlinked) {a b : Nat} :
    Edge (ir.relink isComponent).reads (ir.relink isComponent).ids a b ↔
      ∃ d e, d ∈ ir.definitions ∧ ir.isSurvivor d = true ∧ ir.Binds isComponent d e ∧
        d.id = a ∧ e.id = b := by
  have hreads : b ∈ (ir.relink isComponent).reads a ↔
      ∃ d ∈ ir.definitions, d.id = a ∧ ir.isSurvivor d = true ∧
        ∃ n ∈ d.references isComponent, ir.bind? n.1 d.world = some b := by
    rw [reads]
    constructor
    · intro hb
      cases hd : (ir.relink isComponent).definition? a with
      | none => simp [hd] at hb
      | some d' =>
        obtain ⟨hmem, hid⟩ := (h.relink isComponent).definition?_iff.mp hd
        rw [hu.definitions_relink] at hmem
        obtain ⟨d, hdm, rfl⟩ := List.mem_map.mp hmem
        by_cases hs : ir.isSurvivor d = true
        · rw [if_pos hs] at hid hd
          rw [hd] at hb
          exact ⟨d, hdm, hid, hs, mem_targets.mp hb⟩
        · rw [if_neg hs] at hd
          rw [hd] at hb
          have hempty := hu d hdm
          simp [hempty, EmptyCollection.emptyCollection, OrderedSet.empty] at hb
    · intro hparts
      obtain ⟨d, hdm, rfl, hs, hb⟩ := hparts
      have hd : (ir.relink isComponent).definition? d.id = some (ir.linked isComponent d) := by
        refine (h.relink isComponent).definition?_iff.mpr ⟨?_, rfl⟩
        rw [hu.definitions_relink]
        exact List.mem_map.mpr ⟨d, hdm, if_pos hs⟩
      rw [hd]
      exact mem_targets.mpr hb
  rw [Edge, hreads, ids_relink]
  constructor
  · intro hparts
    obtain ⟨⟨d, hd, rfl, hs, hb⟩, hid⟩ := hparts
    obtain ⟨e, he, rfl⟩ := mem_ids.mp hid
    exact ⟨d, e, hd, hs, ⟨he, hb⟩, rfl, rfl⟩
  · intro hparts
    obtain ⟨d, e, hd, hs, ⟨he, hb⟩, rfl, rfl⟩ := hparts
    exact ⟨⟨d, hd, rfl, hs, hb⟩, mem_ids.mpr ⟨e, he, rfl⟩⟩

/-- The first search reaches exactly the live definitions. -/
theorem mem_live_relink (h : ir.WellFormed) (hu : ir.Unlinked) {id : Nat} :
    id ∈ (ir.relink isComponent).live ↔ ∃ d, ir.Live isComponent d ∧ d.id = id := by
  rw [live, mem_postorder]
  have hroot : ∀ r, r ∈ ((ir.relink isComponent).definitions.filter fun d =>
      d.isEntry && (ir.relink isComponent).isSurvivor d).map Definition.id ↔
      ∃ d ∈ ir.definitions, d.isEntry = true ∧ ir.isSurvivor d = true ∧ d.id = r := by
    intro r
    rw [hu.definitions_relink, List.filter_map, List.map_map, List.mem_map]
    constructor
    · intro hparts
      obtain ⟨d, hd, hid⟩ := hparts
      obtain ⟨hdm, hp⟩ := List.mem_filter.mp hd
      obtain ⟨he, hs⟩ := Bool.and_eq_true_iff.mp hp
      by_cases hsurv : ir.isSurvivor d = true
      · simp only [hsurv, if_true] at he
        simp only [Function.comp_apply, hsurv, if_true] at hid
        exact ⟨d, hdm, he, hsurv, hid⟩
      · simp only [hsurv] at hs
        exact absurd hs hsurv
    · intro hparts
      obtain ⟨d, hd, he, hs, rfl⟩ := hparts
      refine ⟨d, List.mem_filter.mpr ⟨hd, ?_⟩, ?_⟩
      · simp only [Function.comp_apply, hs, if_true]
        exact Bool.and_eq_true_iff.mpr ⟨he, hs⟩
      · simp only [Function.comp_apply, hs, if_true]
        rfl
  constructor
  · intro hparts
    obtain ⟨r, hr, _, hp⟩ := hparts
    induction hp with
    | refl =>
      obtain ⟨d, hd, he, hs, hid⟩ := (hroot r).mp hr
      exact ⟨d, .entry hd he hs, hid⟩
    | tail _ hstep ih =>
      obtain ⟨d, hlive, hid⟩ := ih
      obtain ⟨d', e, hd', _, hb, hid', he⟩ := (edge_relink h hu).mp hstep
      obtain rfl := h.eq_of_id hlive.mem hd' (hid.trans hid'.symm)
      exact ⟨e, hlive.bound hb, he⟩
  · intro hparts
    obtain ⟨d, hlive, rfl⟩ := hparts
    induction hlive with
    | @entry d hd he hs =>
      exact ⟨d.id, (hroot d.id).mpr ⟨d, hd, he, hs, rfl⟩,
        ids_relink ir isComponent ▸ mem_ids.mpr ⟨d, hd, rfl⟩, .refl⟩
    | @bound d e hd hb ih =>
      obtain ⟨r, hr, hrn, hp⟩ := ih
      exact ⟨r, hr, hrn, hp.tail ((edge_relink h hu).mpr
        ⟨d, e, hd.mem, h.live_survivor hd, hb, rfl, rfl⟩)⟩

/-- The live part of a placed representation, linked by the bindings of the whole. -/
structure Pruned (ir : ShaderIR) (isComponent : String → Bool) (pruned : ShaderIR) : Prop where
  wellFormed : pruned.WellFormed
  shader : pruned.shader = ir.shader
  pipeline : pruned.pipeline = ir.pipeline
  definitions : pruned.definitions =
    (ir.liveDefinitions isComponent).map (ir.linked isComponent)
  survivors : ∀ c w id, pruned.survivorId? c w = some id ↔
    ir.survivorId? c w = some id ∧ ∃ d, ir.Live isComponent d ∧ d.id = id

theorem pruned_relink (h : ir.WellFormed) (hu : ir.Unlinked) (isComponent : String → Bool) :
    ir.Pruned isComponent (ir.relink isComponent).prune where
  wellFormed := (h.relink isComponent).prune
  shader := shader_prune _
  pipeline := pipeline_prune _
  definitions := by
    have hlive : ∀ d ∈ ir.definitions,
        d.id ∈ (ir.relink isComponent).live ↔ ir.Live isComponent d := by
      intro d hd
      rw [mem_live_relink h hu]
      constructor
      · intro hparts
        obtain ⟨e, he, hid⟩ := hparts
        rwa [← h.eq_of_id he.mem hd hid]
      · intro hl
        exact ⟨d, hl, rfl⟩
    rw [definitions_prune, hu.definitions_relink, List.filter_map, liveDefinitions]
    have hfilter : ir.definitions.filter ((fun d => (ir.relink isComponent).live.contains d.id) ∘
        fun d => if ir.isSurvivor d then ir.linked isComponent d else d) =
        ir.liveDefinitions isComponent := by
      classical
      refine List.filter_congr fun d hd => ?_
      have hid : (if ir.isSurvivor d then ir.linked isComponent d else d).id = d.id := by
        split <;> rfl
      rw [Function.comp_apply, hid, Bool.eq_iff_iff, List.contains_iff_mem, decide_eq_true_iff]
      exact hlive d hd
    rw [hfilter]
    refine List.map_congr_left fun d hd => if_pos ?_
    exact h.live_survivor (mem_liveDefinitions.mp hd)
  survivors := by
    intro c w id
    rw [survivorId?_prune (h.relink isComponent).mem_ids_of_survivorId?, mem_live_relink h hu]
    exact Iff.rfl

end ShaderVariants.ShaderIR
