import ShaderVariants.Proofs.Choosing
import ShaderVariants.Proofs.Settling
import ShaderVariants.Variant.Resolve

/-! # The meaning of a variant

Resolving is a loop of relinking, pruning and cycle search over a shrinking representation. What it
computes can be said of the placed representation alone, which never changes: a variant exists iff
no live definition leads back to itself and every reference of a live body binds to something, and
it then consists of the live definitions (`variant_meaning`). Dead definitions have no say: neither
their cycles nor their dangling references are reported. -/
namespace ShaderVariants

namespace ShaderIR
open Relation

variable {ir : ShaderIR} {isComponent : String → Bool}

/-- A live definition leads back to itself. -/
def Circular (ir : ShaderIR) (isComponent : String → Bool) : Prop :=
  ∃ d, ir.Live isComponent d ∧ TransGen (ir.Binds isComponent) d d

/-- Every reference of a live body binds to something. -/
def Bound (ir : ShaderIR) (isComponent : String → Bool) : Prop :=
  ∀ d, ir.Live isComponent d → ∀ n ∈ d.references isComponent,
    (ir.bind? n.1 d.world).isSome = true

/-- One report for each reference of a live body that binds to nothing, in source order. -/
noncomputable def unboundReports (ir : ShaderIR) (isComponent : String → Bool) : Diagnostics :=
  (ir.liveDefinitions isComponent).flatMap fun d =>
    ((d.references isComponent).filter fun n => (ir.bind? n.1 d.world).isNone).map fun n =>
      .errorIn ir.shader n.2 (.unavailable d.component n.1 d.world)

theorem unboundReports_eq_nil_iff : ir.unboundReports isComponent = [] ↔ ir.Bound isComponent := by
  simp only [unboundReports, List.flatMap_eq_nil_iff, List.map_eq_nil_iff, List.filter_eq_nil_iff,
    mem_liveDefinitions, Bound, Option.isNone_iff_eq_none, Option.isSome_iff_ne_none]

theorem resolve_of_circular (h : ir.WellFormed) (hu : ir.Unlinked) (hc : ir.Circular isComponent) :
    ∃ d, ir.Live isComponent d ∧ TransGen (ir.Binds isComponent) d d ∧
      ir.resolve isComponent = .error [.errorIn ir.shader d.span (.circularity d.component)] := by
  have hp := pruned_relink h hu isComponent
  cases hcycle : (ir.relink isComponent).prune.cycle? with
  | none =>
    obtain ⟨d, hd, hpath⟩ := hc
    exact absurd hpath ((hp.cycle?_eq_none_iff h).mp hcycle d hd)
  | some d' =>
    obtain ⟨d, hd, hpath, rfl⟩ := hp.cycle?_some h hcycle
    refine ⟨d, hd, hpath, ?_⟩
    rw [resolve, settle_eq h hu, hcycle]
    rfl

theorem resolve_of_not_circular (h : ir.WellFormed) (hu : ir.Unlinked)
    (hc : ¬ ir.Circular isComponent) :
    ir.resolve isComponent = match ir.unboundReports isComponent with
      | [] => .ok (ir.relink isComponent).prune
      | reports => .error reports := by
  have hp := pruned_relink h hu isComponent
  have hcycle : (ir.relink isComponent).prune.cycle? = none :=
    (hp.cycle?_eq_none_iff h).mpr fun d hd hpath => hc ⟨d, hd, hpath⟩
  have hreports : ((ir.relink isComponent).prune.dangling isComponent).map (fun r =>
      Diagnostic.errorIn ir.shader r.span
        (.unavailable r.definition.component r.reference r.definition.world)) =
      ir.unboundReports isComponent := by
    rw [hp.dangling_eq h, List.map_flatMap, unboundReports]
    simp only [List.map_map]
    rfl
  rw [resolve, settle_eq h hu, hcycle, ← hreports]
  dsimp only
  cases (ir.relink isComponent).prune.dangling isComponent <;> rfl

/-! ## The index as one list -/

/-- The entries of the index: component, world, and the definition that holds the slot. -/
def indexEntries (ir : ShaderIR) : List (String × String × Nat) :=
  ir.index.entries.flatMap fun c => c.2.entries.map fun w => (c.1, w.1, w.2)

theorem mem_indexEntries {c w : String} {id : Nat} :
    (c, w, id) ∈ ir.indexEntries ↔ ir.survivorId? c w = some id := by
  rw [survivorId?_eq_some_iff, indexEntries, List.mem_flatMap]
  constructor
  · intro hparts
    obtain ⟨⟨c', worlds⟩, hc, hw⟩ := hparts
    obtain ⟨⟨w', id'⟩, hslot, he⟩ := List.mem_map.mp hw
    cases he
    exact ⟨worlds, hc, hslot⟩
  · intro hparts
    obtain ⟨worlds, hc, hw⟩ := hparts
    exact ⟨(c, worlds), hc, List.mem_map.mpr ⟨(w, id), hw, rfl⟩⟩

theorem nodup_indexEntries (ir : ShaderIR) : ir.indexEntries.Nodup := by
  rw [indexEntries, List.nodup_flatMap]
  constructor
  · intro c _
    refine List.Nodup.of_map (fun e => e.2.1) ?_
    rw [List.map_map]
    exact c.2.distinct
  · have hkeys := List.pairwise_map.mp ir.index.distinct
    refine hkeys.imp fun {a b} hne => ?_
    intro e ha hb
    obtain ⟨_, _, rfl⟩ := List.mem_map.mp ha
    obtain ⟨_, _, he⟩ := List.mem_map.mp hb
    exact hne (congrArg Prod.fst he).symm

theorem Pruned.indexEntries_perm {pruned : ShaderIR} (hp : ir.Pruned isComponent pruned)
    (h : ir.WellFormed) :
    pruned.indexEntries.Perm (pruned.definitions.map fun d => (d.component, d.world, d.id)) := by
  have hnodup : (pruned.definitions.map fun d => (d.component, d.world, d.id)).Nodup := by
    refine List.Nodup.of_map (fun e => e.2.2) ?_
    rw [List.map_map]
    exact hp.wellFormed.nodup_ids
  refine (List.perm_ext_iff_of_nodup (nodup_indexEntries pruned) hnodup).mpr ?_
  intro hparts
  obtain ⟨c, w, id⟩ := hparts
  rw [mem_indexEntries, List.mem_map]
  constructor
  · intro hs
    obtain ⟨d, hd, rfl, rfl, rfl⟩ := hp.wellFormed.indexed c w id hs
    exact ⟨d, hd, rfl⟩
  · intro hparts
    obtain ⟨d, hd, he⟩ := hparts
    cases he
    exact isSurvivor_iff.mp (hp.isSurvivor_of_mem h hd)

/-- What is said of a representation after the last round. -/
def verdict (isComponent : String → Bool) (shader : String) (ir : ShaderIR) :
    Except Diagnostics ShaderIR :=
  match ir.cycle? with
  | some d => .error [.errorIn shader d.span (.circularity d.component)]
  | none =>
    match ir.dangling isComponent with
    | [] => .ok ir
    | dangling => .error (dangling.map fun r =>
        .errorIn shader r.span (.unavailable r.definition.component r.reference r.definition.world))

theorem resolve_eq_verdict (h : ir.WellFormed) (hu : ir.Unlinked) (isComponent : String → Bool) :
    ir.resolve isComponent = verdict isComponent ir.shader (ir.relink isComponent).prune := by
  rw [resolve, settle_eq h hu, verdict]
  cases (ir.relink isComponent).prune.cycle? <;> rfl

end ShaderIR

namespace Closure
open Relation

/-- The representation of a closure under a schedule before anything is bound. -/
def placed (closure : Closure) (schedule : Schedule) : ShaderIR :=
  let chosen := Choosing.run closure schedule
  .ofComponents closure.name closure.pipeline chosen.components chosen.asked

theorem wellFormed_placed (closure : Closure) (schedule : Schedule) :
    (closure.placed schedule).WellFormed :=
  ShaderIR.wellFormed_ofComponents _ _ _ _

theorem unlinked_placed (closure : Closure) (schedule : Schedule) :
    (closure.placed schedule).Unlinked :=
  ShaderIR.unlinked_ofComponents _ _ _ _

theorem closure_variant (closure : Closure) (schedule : Schedule) :
    (closure.variant schedule).closure =
      { closure with components := (Choosing.run closure schedule).components } := by
  unfold variant
  dsimp only
  split <;> rfl

variable {closure : Closure} {schedule : Schedule}

theorem variant_of_ok {ir : ShaderIR}
    (h : (closure.placed schedule).resolve closure.components.contains = .ok ir) :
    (closure.variant schedule).ir = some ir ∧
      (closure.variant schedule).diagnostics = (Choosing.run closure schedule).diagnostics := by
  rw [← Choosing.contains_run closure schedule, placed] at h
  rw [variant, h]
  exact ⟨rfl, rfl⟩

theorem variant_of_error {reports : Diagnostics}
    (h : (closure.placed schedule).resolve closure.components.contains = .error reports) :
    (closure.variant schedule).ir = none ∧
      (closure.variant schedule).diagnostics =
        (Choosing.run closure schedule).diagnostics ++ reports := by
  rw [← Choosing.contains_run closure schedule, placed] at h
  rw [variant, h]
  exact ⟨rfl, rfl⟩

/-- Where there is a variant, all that is complained about is choices. -/
theorem diagnostics_of_variant {ir : ShaderIR} (h : (closure.variant schedule).ir = some ir) :
    (closure.variant schedule).diagnostics = (Choosing.run closure schedule).diagnostics := by
  cases hr : (closure.placed schedule).resolve closure.components.contains with
  | ok ir' => exact (variant_of_ok hr).2
  | error reports =>
    rw [(variant_of_error hr).1] at h
    cases h

/-- As one round finds it, which can be evaluated. -/
theorem variant_eq_round (closure : Closure) (schedule : Schedule) :
    closure.variant schedule =
      let chosen := Choosing.run closure schedule
      let decided := { closure with components := chosen.components }
      match ShaderIR.verdict chosen.components.contains (closure.placed schedule).shader
        ((closure.placed schedule).relink chosen.components.contains).prune with
      | .ok ir => ⟨decided, some ir, chosen.diagnostics⟩
      | .error diagnostics => ⟨decided, none, chosen.diagnostics ++ diagnostics⟩ := by
  dsimp only
  rw [← ShaderIR.resolve_eq_verdict (closure.wellFormed_placed schedule)
    (closure.unlinked_placed schedule)]
  rfl

/-- One round is enough to find a variant. -/
theorem variant_of_round
    (hcycle : ((closure.placed schedule).relink closure.components.contains).prune.cycle? = none)
    (hdangling : ((closure.placed schedule).relink closure.components.contains).prune.dangling
      closure.components.contains = []) :
    (closure.variant schedule).ir =
      some ((closure.placed schedule).relink closure.components.contains).prune := by
  refine (variant_of_ok ?_).1
  rw [ShaderIR.resolve, ShaderIR.settle_eq (closure.wellFormed_placed schedule)
    (closure.unlinked_placed schedule), hcycle]
  dsimp only
  rw [hdangling]

/-- A variant is the live part of the placed representation. -/
theorem pruned_of_variant {ir : ShaderIR} (h : (closure.variant schedule).ir = some ir) :
    (closure.placed schedule).Pruned closure.components.contains ir ∧
      ¬ (closure.placed schedule).Circular closure.components.contains ∧
      (closure.placed schedule).Bound closure.components.contains := by
  have hw := closure.wellFormed_placed schedule
  have hu := closure.unlinked_placed schedule
  by_cases hc : (closure.placed schedule).Circular closure.components.contains
  · obtain ⟨d, _, _, hr⟩ := ShaderIR.resolve_of_circular hw hu hc
    rw [(variant_of_error hr).1] at h
    cases h
  · have hr := ShaderIR.resolve_of_not_circular hw hu hc
    cases hreports : (closure.placed schedule).unboundReports closure.components.contains with
    | nil =>
      rw [hreports] at hr
      rw [(variant_of_ok hr).1] at h
      cases h
      exact ⟨ShaderIR.pruned_relink hw hu _, hc, ShaderIR.unboundReports_eq_nil_iff.mp hreports⟩
    | cons report reports =>
      rw [hreports] at hr
      rw [(variant_of_error hr).1] at h
      cases h

theorem shader_placed (closure : Closure) (schedule : Schedule) :
    (closure.placed schedule).shader = closure.name := by
  refine ShaderIR.ofComponents_induction (P := fun ir => ir.shader = closure.name) _ _ rfl
    (fun _ _ h _ => h) fun ir slot h => ?_
  have hinstall : (ir.install slot.holder).shader = ir.shader := by
    unfold ShaderIR.install
    split <;> rfl
  unfold ShaderIR.award
  split <;> exact hinstall.trans h

/-- Resolving a closure under a schedule, said of the representation as it was placed. There is a
variant iff the live definitions have no cycle and no reference that binds to nothing. It holds the
live definitions in order, each with its targets in the order of first use, and an index of exactly
these. A cycle gives one report, about a definition on a cycle; otherwise there is one report for
each live reference that binds to nothing. -/
theorem variant_meaning (closure : Closure) (schedule : Schedule) :
    let placed := closure.placed schedule
    let isComponent := closure.components.contains
    let chosen := (Choosing.run closure schedule).diagnostics
    let variant := closure.variant schedule
    (variant.ir.isSome = true ↔ ¬ placed.Circular isComponent ∧ placed.Bound isComponent) ∧
    (∀ ir, variant.ir = some ir →
      ir.definitions = (placed.liveDefinitions isComponent).map (placed.linked isComponent) ∧
      ir.indexEntries.Perm (ir.definitions.map fun d => (d.component, d.world, d.id))) ∧
    (placed.Circular isComponent → variant.ir = none ∧
      ∃ d, placed.Live isComponent d ∧ TransGen (placed.Binds isComponent) d d ∧
        variant.diagnostics =
          chosen ++ [.errorIn closure.name d.span (.circularity d.component)]) ∧
    (¬ placed.Circular isComponent →
      variant.diagnostics = chosen ++ placed.unboundReports isComponent) ∧
    ∀ d ∈ chosen, d.problem.code = "invalid-choice-for-key" := by
  intro placed isComponent chosen variant
  have h : placed.WellFormed := closure.wellFormed_placed schedule
  have hu : placed.Unlinked := closure.unlinked_placed schedule
  have hcodes : ∀ d ∈ chosen, d.problem.code = "invalid-choice-for-key" := by
    intro d hd
    obtain ⟨_, _, _, rfl⟩ := Choosing.diagnostics_run closure schedule d hd
    rfl
  have hir : ∀ ir, variant.ir = some ir →
      ir.definitions = (placed.liveDefinitions isComponent).map (placed.linked isComponent) ∧
      ir.indexEntries.Perm (ir.definitions.map fun d => (d.component, d.world, d.id)) := by
    intro ir hv
    obtain ⟨hp, _, _⟩ := pruned_of_variant hv
    exact ⟨hp.definitions, hp.indexEntries_perm h⟩
  refine ⟨⟨?_, ?_⟩, hir, ?_, ?_, hcodes⟩
  · intro hsome
    obtain ⟨ir, hv⟩ := Option.isSome_iff_exists.mp hsome
    exact (pruned_of_variant hv).2
  · intro hparts
    obtain ⟨hc, hb⟩ := hparts
    have hr := ShaderIR.resolve_of_not_circular h hu hc
    rw [ShaderIR.unboundReports_eq_nil_iff.mpr hb] at hr
    rw [(variant_of_ok hr).1]
    rfl
  · intro hc
    obtain ⟨d, hd, hpath, hr⟩ := ShaderIR.resolve_of_circular h hu hc
    obtain ⟨hnone, hdiags⟩ := variant_of_error hr
    rw [shader_placed] at hdiags
    exact ⟨hnone, d, hd, hpath, hdiags⟩
  · intro hc
    have hr := ShaderIR.resolve_of_not_circular h hu hc
    cases hreports : placed.unboundReports isComponent with
    | nil =>
      rw [hreports] at hr
      rw [List.append_nil]
      exact (variant_of_ok hr).2
    | cons report reports =>
      rw [hreports] at hr
      exact (variant_of_error hr).2

end Closure

end ShaderVariants
