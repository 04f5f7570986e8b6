import ShaderVariants.Proofs.ChoiceSets
import ShaderVariants.Proofs.PipelineOrder
import ShaderVariants.Proofs.Rounds

/-! # Circularity stays within one world

A reference binds in its own world or in one before it in the order of the pipeline, and a world
that is not in the order stands behind all that are. So along bindings the world stays or moves
towards the front (`WellFormed.binds_descends`), and it can come back only if it never moved
(`Descends.world_eq`). The dependencies of every round are of that kind: relinking takes them from
bindings, and pruning adds none (`descending_rounds`). A cycle of bindings is then one of references
between the survivors of a single world (`WellFormed.circular_iff`). -/
namespace ShaderVariants

namespace ShaderIR
open Relation

variable {ir : ShaderIR} {isComponent : String → Bool}

/-- From one definition to the next the world stays, or moves towards the front of the order. -/
def Descends (order : List String) (r : Definition → Definition → Prop) : Prop :=
  ∀ d e, r d e → e.world = d.world ∨ order.idxOf e.world < order.idxOf d.world

namespace Descends
variable {order : List String} {r : Definition → Definition → Prop} {d e : Definition}

theorem path (h : Descends order r) (hp : ReflTransGen r d e) :
    e.world = d.world ∨ order.idxOf e.world < order.idxOf d.world := by
  induction hp with
  | refl => exact Or.inl rfl
  | @tail b c _ hstep ih =>
    rcases h b c hstep with hw | hlt
    · rwa [hw]
    · right
      rcases ih with hw | hlt'
      · rwa [← hw]
      · exact Nat.lt_trans hlt hlt'

theorem world_eq (h : Descends order r) (hde : ReflTransGen r d e) (hed : ReflTransGen r e d) :
    d.world = e.world := by
  rcases h.path hed with hw | hlt
  · exact hw
  · rcases h.path hde with hw | hlt'
    · exact hw.symm
    · exact absurd hlt' (Nat.lt_asymm hlt)

end Descends

/-- A binding is a reference to the survivor of a slot, in the same world or upstream. -/
theorem WellFormed.binds_slot (h : ir.WellFormed) {d e : Definition}
    (hb : ir.Binds isComponent d e) :
    (∃ n ∈ d.references isComponent, n.1 = e.component) ∧
      (e.world = d.world ∨
        e.world ∈ ir.pipeline.order ∧ ir.pipeline.reaches e.world d.world = true) := by
  obtain ⟨he, n, hn, hbind⟩ := hb
  obtain ⟨u, hs, hu⟩ := bind?_source hbind
  obtain ⟨e', he', hid, hc, rfl⟩ := h.indexed n.1 u e.id hs
  obtain rfl := h.eq_of_id he' he hid
  exact ⟨⟨n, hn, hc.symm⟩, hu⟩

theorem WellFormed.binds_descends (h : ir.WellFormed) (isComponent : String → Bool) :
    Descends ir.pipeline.order (ir.Binds isComponent) := by
  intro d e hb
  by_cases hne : e.world = d.world
  · exact Or.inl hne
  obtain ⟨hmem, hreach⟩ := (h.binds_slot hb).2.resolve_left hne
  right
  by_cases hd : d.world ∈ ir.pipeline.order
  · exact (Pipeline.idxOf_lt_of_reaches hreach hne hd).2
  · -- the place of what is not in the order is its length
    rw [List.idxOf_of_notMem hd]
    exact List.idxOf_lt_length_of_mem hmem

/-! ## Dependencies through the rounds -/

/-- A definition has another among its dependencies. -/
def DependsOn (ir : ShaderIR) (d e : Definition) : Prop :=
  d ∈ ir.definitions ∧ e ∈ ir.definitions ∧ e.id ∈ d.dependencies

/-- Dependencies leave a world only towards the front of the order. -/
def Descending (ir : ShaderIR) : Prop := Descends ir.pipeline.order ir.DependsOn

theorem Unlinked.descending (hu : ir.Unlinked) : ir.Descending := by
  intro d e hde
  have hmem := hde.2.2
  rw [hu d hde.1] at hmem
  cases hmem

theorem mem_relink {d' : Definition} (h : d' ∈ (ir.relink isComponent).definitions) :
    ∃ d ∈ ir.definitions, d' = d ∨ d' = ir.linked isComponent d := by
  obtain ⟨d, hd, rfl⟩ := List.mem_map.mp h
  refine ⟨d, hd, ?_⟩
  split
  · exact Or.inr rfl
  · exact Or.inl rfl

theorem Descending.relink (hd : ir.Descending) (h : ir.WellFormed) (isComponent : String → Bool) :
    (ir.relink isComponent).Descending := by
  rintro d' e' ⟨hd', he', hmem⟩
  obtain ⟨d, hdm, hd'⟩ := mem_relink hd'
  obtain ⟨e, hem, he'⟩ := mem_relink he'
  have hslot : e'.id = e.id ∧ e'.world = e.world := by
    rcases he' with rfl | rfl <;> exact ⟨rfl, rfl⟩
  rw [hslot.1] at hmem
  rw [hslot.2]
  rcases hd' with rfl | rfl
  · exact hd d' e ⟨hdm, hem, hmem⟩
  · exact h.binds_descends isComponent d e ⟨hem, mem_targets.mp hmem⟩

theorem Descending.prune (hd : ir.Descending) : ir.prune.Descending := by
  rw [Descending, pipeline_prune]
  rintro d e ⟨hdm, hem, hmem⟩
  exact hd d e ⟨mem_of_mem_prune hdm, mem_of_mem_prune hem, hmem⟩

/-- What so many rounds leave. -/
def rounds (ir : ShaderIR) (isComponent : String → Bool) (n : Nat) : ShaderIR :=
  (round · isComponent)^[n] ir

theorem descending_rounds (h : ir.WellFormed) (hd : ir.Descending) (isComponent : String → Bool)
    (n : Nat) : (ir.rounds isComponent n).WellFormed ∧ (ir.rounds isComponent n).Descending := by
  induction n with
  | zero => exact ⟨h, hd⟩
  | succ n ih =>
    rw [rounds, Function.iterate_succ_apply']
    exact ⟨(ih.1.relink isComponent).prune, (ih.2.relink ih.1 isComponent).prune⟩

/-! ## Cycles of bindings -/

/-- The body of a survivor of a world names the component of another. -/
def RefersWithin (ir : ShaderIR) (isComponent : String → Bool) (w : String) (d e : Definition) :
    Prop :=
  d ∈ ir.inWorld w ∧ e ∈ ir.inWorld w ∧ ∃ n ∈ d.references isComponent, n.1 = e.component

theorem mem_inWorld {w : String} {d : Definition} :
    d ∈ ir.inWorld w ↔ d ∈ ir.definitions ∧ d.world = w ∧ ir.isSurvivor d = true := by
  simp [inWorld]

/-- The survivor of the same world comes first. -/
theorem RefersWithin.binds {w : String} {d e : Definition} (h : ir.RefersWithin isComponent w d e) :
    ir.Binds isComponent d e := by
  obtain ⟨hd, he, n, hn, hc⟩ := h
  obtain ⟨_, hdw, _⟩ := mem_inWorld.mp hd
  obtain ⟨he, hew, hs⟩ := mem_inWorld.mp he
  refine ⟨he, n, hn, ?_⟩
  rw [bind?_eq, hc, hdw, ← hew, isSurvivor_iff.mp hs]

theorem WellFormed.refersWithin_of_binds (h : ir.WellFormed) {w : String} {d e : Definition}
    (hd : d ∈ ir.inWorld w) (hb : ir.Binds isComponent d e) (hw : e.world = w) :
    ir.RefersWithin isComponent w d e :=
  ⟨hd, mem_inWorld.mpr ⟨hb.1, hw, h.binds_survivor hb⟩, (h.binds_slot hb).1⟩

/-- Where bindings lead from a survivor and back to it, they stay in its world. -/
theorem WellFormed.transGen_refersWithin (h : ir.WellFormed) {w : String} {d e : Definition}
    (hd : d ∈ ir.inWorld w) (hde : TransGen (ir.Binds isComponent) d e)
    (hed : ReflTransGen (ir.Binds isComponent) e d) :
    TransGen (ir.RefersWithin isComponent w) d e := by
  have hworld : ∀ {x}, ReflTransGen (ir.Binds isComponent) d x →
      ReflTransGen (ir.Binds isComponent) x d → x.world = w := by
    intro x hto hback
    exact ((h.binds_descends isComponent).world_eq hback hto).trans (mem_inWorld.mp hd).2.1
  induction hde with
  | single hb => exact .single (h.refersWithin_of_binds hd hb (hworld (.single hb) hed))
  | @tail b c hdb hb ih =>
    have hwithin := ih (hed.head hb)
    obtain ⟨_, _, _, hbw, _⟩ := TransGen.tail'_iff.mp hwithin
    exact hwithin.tail (h.refersWithin_of_binds hbw hb (hworld (hdb.tail hb).to_reflTransGen hed))

/-- A live definition leads back to itself iff it does within its world. -/
theorem WellFormed.circular_iff (h : ir.WellFormed) {d : Definition}
    (hd : ir.Live isComponent d) :
    TransGen (ir.Binds isComponent) d d ↔ TransGen (ir.RefersWithin isComponent d.world) d d := by
  constructor
  · intro hcycle
    have hmem := mem_inWorld.mpr ⟨hd.mem, rfl, h.live_survivor hd⟩
    exact h.transGen_refersWithin hmem hcycle .refl
  · intro hcycle
    exact TransGen.mono (fun _ _ hstep => RefersWithin.binds hstep) _ _ hcycle

end ShaderIR

namespace Closure
open Relation

/-- The reports of circularity are what the search for a cycle finds in the first round. -/
theorem circularities_variant (closure : Closure) (schedule : Schedule) :
    (closure.variant schedule).diagnostics.ofCode "component-definition-circularity" =
      (((closure.placed schedule).relink closure.components.contains).prune.cycle?.map fun d =>
        Diagnostic.errorIn closure.name d.span (.circularity d.component)).toList := by
  have hchosen := ofCode_diagnostics_run closure schedule
    (show "component-definition-circularity" ≠ "invalid-choice-for-key" by decide)
  rw [variant_eq_round, shader_placed, ← Choosing.contains_run closure schedule]
  dsimp only
  rw [ShaderIR.verdict]
  cases ShaderIR.cycle? _ with
  | some d =>
    show Diagnostics.ofCode (_ ++ [_]) _ = _
    rw [Diagnostics.ofCode_append, hchosen]
    rfl
  | none =>
    dsimp only
    cases ShaderIR.dangling _ _ with
    | nil => exact hchosen
    | cons r dangling =>
      show Diagnostics.ofCode (_ ++ _) _ = _
      rw [Diagnostics.ofCode_append, hchosen]
      refine Diagnostics.ofCode_eq_nil fun report hreport => ?_
      obtain ⟨r', _, rfl⟩ := List.mem_map.mp hreport
      simp [Diagnostic.errorIn, Problem.code]

/-- In no round are there dependencies that lead out of a world and back into it. A report of
circularity is about a definition from which references between the survivors of its own world lead
back to it, and if no live definition is such there is no report. -/
theorem circular_within_world (closure : Closure) (schedule : Schedule) :
    let placed := closure.placed schedule
    let isComponent := closure.components.contains
    let reports := (closure.variant schedule).diagnostics.ofCode "component-definition-circularity"
    (∀ n d e, let linked := (placed.rounds isComponent n).relink isComponent
      TransGen linked.DependsOn d e → TransGen linked.DependsOn e d → d.world = e.world) ∧
    (∀ report ∈ reports, ∃ d, placed.Live isComponent d ∧
      TransGen (placed.RefersWithin isComponent d.world) d d ∧
      report = .errorIn closure.name d.span (.circularity d.component)) ∧
    (reports = [] ↔ ∀ d, placed.Live isComponent d →
      ¬ TransGen (placed.RefersWithin isComponent d.world) d d) := by
  intro placed isComponent reports
  have h : placed.WellFormed := closure.wellFormed_placed schedule
  have hu : placed.Unlinked := closure.unlinked_placed schedule
  have hp := ShaderIR.pruned_relink h hu isComponent
  have hreports : reports = _ := closure.circularities_variant schedule
  refine ⟨fun n d e => ?_, fun report hreport => ?_, ?_⟩
  · intro linked hde hed
    obtain ⟨hwell, hdown⟩ := ShaderIR.descending_rounds h hu.descending isComponent n
    have hlinked : linked.Descending := hdown.relink hwell isComponent
    exact hlinked.world_eq hde.to_reflTransGen hed.to_reflTransGen
  · rw [hreports, Option.mem_toList, Option.map_eq_some_iff] at hreport
    obtain ⟨d', hcycle, rfl⟩ := hreport
    obtain ⟨d, hd, hpath, rfl⟩ := hp.cycle?_some h hcycle
    exact ⟨d, hd, (h.circular_iff hd).mp hpath, rfl⟩
  · rw [hreports, Option.toList_eq_nil_iff, Option.map_eq_none_iff, hp.cycle?_eq_none_iff h]
    exact forall₂_congr fun d hd => not_congr (h.circular_iff hd)

end Closure

end ShaderVariants
