import ShaderVariants.Proofs.Decisions
import ShaderVariants.Proofs.Defaults

/-! # What the catalog offers can be had

The catalog lists the placements of a component without asking how schedules are applied, and a
schedule is applied without asking the catalog. They agree all the same: a schedule that selects one
option and nothing else is accepted, and where the variant has a definition in the world of the
option it is of the alternate that was offered (`offered_option_wins`). A single selection has no
rival, so nothing can preempt it. -/
namespace ShaderVariants

/-- Options are the legal worlds of the implementations, each with the alternate of its
implementation. -/
theorem Component.mem_options {c : Component} {o : Selection} : o ∈ c.options ↔
    ∃ i ∈ c.implementations, ∃ w ∈ i.worlds, w ∈ c.constrained ∧
      o = { world := w, alternate := i.alternate } := by
  rw [options, OrderedSet.toList_ofList, List.mem_eraseDups, List.mem_flatMap]
  refine exists_congr fun i => and_congr_right fun _ => ?_
  simp only [List.mem_map, List.mem_filter, OrderedSet.contains_iff]
  constructor
  · rintro ⟨w, ⟨hw, hlegal⟩, rfl⟩
    exact ⟨w, hw, hlegal, rfl⟩
  · rintro ⟨w, hw, hlegal, rfl⟩
    exact ⟨w, ⟨hw, hlegal⟩, rfl⟩

/-- Nothing is preempted where all selections are for the same world. -/
theorem Component.not_preempted {c : Component} {selections : List Selection} {w : String}
    (h : ∀ s ∈ selections, s.world = w) (a : String) : ¬ c.Preempted selections w a := by
  rintro ⟨_, _, _, _, _, _, ⟨s, hs, hne, _⟩, _⟩
  exact hne (h s hs)

namespace Closure
variable {closure : Closure} {c : Component}

theorem of_mem_choices {choice : Choice} (h : choice ∈ closure.choices) :
    ∃ c ∈ closure.components.values, c.aliases.head? = some choice.name ∧
      choice.options = c.options := by
  obtain ⟨c, hc, hchoice⟩ := List.mem_filterMap.mp h
  obtain ⟨name, hname, rfl⟩ := Option.map_eq_some_iff.mp hchoice
  exact ⟨c, (List.mem_filter.mp hc).1, hname, rfl⟩

/-- A legal selection under a name that is not shared is all that reaches its component. -/
theorem selections_select (hu : closure.Unshared) (hc : c ∈ closure.components.values) {a : String}
    (ha : a ∈ c.aliases) {s : Selection} (hs : s.world ∈ c.constrained) :
    closure.selections (({} : Schedule).select a [s]) c = [s] := by
  have haim := (ofChoice?_eq hu hc ha).1
  have hlegal : c.isLegal s = true := OrderedSet.contains_iff.mpr hs
  show ([(a, [s])].filter fun choice : String × List Selection =>
    closure.components.aliasIndex.find? choice.1 = some c.name).flatMap _ = [s]
  simp [haim, hlegal]

theorem diagnostics_select (hu : closure.Unshared) (hc : c ∈ closure.components.values) {a : String}
    (ha : a ∈ c.aliases) {s : Selection} (hs : s.world ∈ c.constrained) :
    (Choosing.run closure (({} : Schedule).select a [s])).diagnostics = [] := by
  refine Choosing.diagnostics_run_eq_nil_iff.mpr fun choice hchoice c' htarget s' hs' => ?_
  obtain rfl : choice = (a, [s]) := List.mem_singleton.mp hchoice
  rw [(ofChoice?_eq hu hc ha).2] at htarget
  obtain rfl := Option.some.inj htarget
  obtain rfl : s' = s := List.mem_singleton.mp hs'
  exact OrderedSet.contains_iff.mpr hs

/-- Every entry of the catalog is that of a component. Selecting any one of its options, wherever
that is written, is not complained about and decides the slot of the option. -/
theorem offered_option_wins (hu : closure.Unshared) {choice : Choice}
    (hchoice : choice ∈ closure.choices) :
    ∃ c ∈ closure.components.values, c.aliases.head? = some choice.name ∧
      ∀ o ∈ choice.options, ∀ span : Span,
        let v := closure.variant (({} : Schedule).select choice.name [{ o with span }])
        v.diagnostics.ofCode "invalid-choice-for-key" = [] ∧
          ∀ ir, v.ir = some ir → ∀ d ∈ ir.definitions, d.component = c.name →
            d.world = o.world → d.alternate.getD "" = o.alternateName := by
  obtain ⟨c, hc, hname, hoptions⟩ := of_mem_choices hchoice
  refine ⟨c, hc, hname, fun o ho span => ?_⟩
  have ha : choice.name ∈ c.aliases := List.mem_of_mem_head? hname
  rw [hoptions] at ho
  obtain ⟨i, hi, w, hw, hlegal, rfl⟩ := Component.mem_options.mp ho
  refine ⟨?_, fun ir hir d hd hcomponent hworld => ?_⟩
  · rw [ofCode_invalidChoice_variant]
    exact diagnostics_select hu hc ha hlegal
  · have hholder := alternate_of_variant hc hir hd hcomponent
    rw [selections_select hu hc ha hlegal, hworld] at hholder
    obtain ⟨j, hj, halternate⟩ := Option.map_eq_some_iff.mp hholder
    rw [← halternate]
    refine (Component.holder?_alternate_iff ?_ ?_ ?_ hj).mpr (Component.not_preempted ?_ _)
    · exact ⟨_, List.mem_cons_self, rfl⟩
    · intro s hs _
      obtain rfl := List.mem_singleton.mp hs
      rfl
    · exact ⟨i, hi, rfl, OrderedSet.contains_iff.mpr hw⟩
    · intro s hs
      obtain rfl := List.mem_singleton.mp hs
      rfl

end Closure

/-- The flat decal is offered in the later stage, where the unnamed one would stand otherwise. -/
theorem offered_option_wins_decalShader :
    let schedule := ({} : Schedule).select "decal" [{ world := "fs", alternate := some "flat" }]
    (decalShader.variant schedule).diagnostics.ofCode "invalid-choice-for-key" = [] ∧
      ∃ ir, (decalShader.variant schedule).ir = some ir ∧
        ∃ d ∈ ir.definitions, d.component = "decal" ∧ d.world = "fs" ∧
          d.alternate.getD "" = "flat" := by
  intro schedule
  have hchoice : (⟨"decal", decalComponent.options, none⟩ : Choice) ∈ decalShader.choices := by
    decide +kernel
  obtain ⟨c, hc, hname, hwins⟩ := Closure.offered_option_wins unshared_decalShader hchoice
  obtain rfl : decalComponent = c :=
    unshared_decalShader decalComponent (List.mem_cons_of_mem _ List.mem_cons_self) c hc "decal"
      List.mem_cons_self (List.mem_of_mem_head? hname)
  obtain ⟨hdiagnostics, halternate⟩ := hwins { world := "fs", alternate := some "flat" }
    (by decide +kernel) {}
  have hir : (decalShader.variant schedule).ir =
      some ((decalShader.placed schedule).relink decalShader.components.contains).prune :=
    Closure.variant_of_round (Option.isNone_iff_eq_none.mp (by decide +kernel))
      (List.isEmpty_iff.mp (by decide +kernel))
  have hslot : ∃ d ∈ ((decalShader.placed schedule).relink
      decalShader.components.contains).prune.definitions,
      d.component = "decal" ∧ d.world = "fs" := by
    decide +kernel
  obtain ⟨d, hd, hcomponent, hworld⟩ := hslot
  exact ⟨hdiagnostics, _, hir, d, hd, hcomponent, hworld, halternate _ hir d hd hcomponent hworld⟩

end ShaderVariants
