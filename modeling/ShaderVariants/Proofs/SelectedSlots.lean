import ShaderVariants.Proofs.Placement
import ShaderVariants.Proofs.VariantMeaning

/-! # What a selection decides

A selection names a world and an alternate, but what it marks is an implementation, in all worlds
that the implementation may occupy. So a selection for one world also counts in others, and there it
can win against the selection made for them, if the implementation it marks is declared first.
`selected_alternate_iff` says exactly when a slot goes to the alternate that was selected for it. -/
namespace ShaderVariants

/-! ## The selections that reach a component -/

/-- The legal selections for a component, from every choice whose name stands for it. -/
def Closure.selections (closure : Closure) (schedule : Schedule) (c : Component) :
    List Selection :=
  (schedule.choices.entries.filter fun choice =>
    closure.components.aliasIndex.find? choice.1 = some c.name).flatMap fun choice =>
      choice.2.filter c.isLegal

/-- Some of the selections names the alternate, for a world that the implementation may occupy. -/
def Implementation.isAsked (i : Implementation) (selections : List Selection) : Bool :=
  selections.any fun s => i.alternateName = s.alternateName && i.worlds.contains s.world

namespace Closure
variable {closure : Closure} {schedule : Schedule} {c : Component}

/-- The implementations that are asked for, by what was declared and selected alone. -/
theorem mem_asked (hc : c ∈ closure.components.values) {i : Implementation} {k : Nat}
    (hi : (i, k) ∈ c.implementations.zipIdx) :
    (c.name, k) ∈ (Choosing.run closure schedule).asked ↔
      i.isAsked (closure.selections schedule c) = true := by
  rw [Choosing.mem_asked_run, Implementation.isAsked, selections, List.any_flatMap,
    List.any_eq_true]
  constructor
  · intro hasked
    obtain ⟨choice, hchoice, name, c', hname, hc', hn, hk⟩ := hasked
    have hkey : name = c'.name := (Components.name_of_find? hc').symm
    rw [hkey, hn, Components.find?_name hc] at hc'
    cases hc'
    refine ⟨choice, List.mem_filter.mpr ⟨hchoice, ?_⟩,
      List.any_eq_true.mpr ((Component.mem_selected hi).mp hk)⟩
    rw [hname, hkey]
    simp
  · intro hasked
    obtain ⟨choice, hchoice, hany⟩ := hasked
    obtain ⟨hmem, halias⟩ := List.mem_filter.mp hchoice
    exact ⟨choice, hmem, c.name, c, of_decide_eq_true halias, Components.find?_name hc, rfl,
      (Component.mem_selected hi).mpr (List.any_eq_true.mp hany)⟩

/-- The component as a schedule decided it, with the same implementations but for attributes. -/
theorem decided (hc : c ∈ closure.components.values) (schedule : Schedule) :
    ∃ c' ∈ (Choosing.run closure schedule).components.values, c.core = c'.core := by
  obtain ⟨c', hc', hcore⟩ :=
    Choosing.find?_of_core (Choosing.core_run closure schedule).symm (Components.find?_name hc)
  exact ⟨c', OrderedMap.mem_values_of_find? hc', hcore⟩

end Closure

/-- The implementation that holds the slot of a world under some selections: the first occupant that
they ask for, or else the last. -/
def Component.holder? (c : Component) (selections : List Selection) (w : String) :
    Option Implementation :=
  let occupants := c.implementations.filter (·.worlds.contains w)
  (occupants.find? (·.isAsked selections)).or occupants.getLast?

theorem Component.alternate_chosen?_core (c : Component) (asked : List (String × Nat))
    (w : String) :
    (c.core.chosen? asked w).map (·.1.alternate) = (c.chosen? asked w).map (·.1.alternate) := by
  rw [chosen?, chosen?, occupants, occupants, core, List.zipIdx_map, List.filter_map,
    List.find?_map, List.getLast?_map, ← Option.map_or, Option.map_map]
  rfl

namespace Closure
variable {closure : Closure} {schedule : Schedule} {c : Component}

theorem chosen?_eq (hc : c ∈ closure.components.values) (w : String) :
    (c.chosen? (Choosing.run closure schedule).asked w).map Prod.fst =
      c.holder? (closure.selections schedule c) w := by
  have hasked : ∀ i ∈ c.occupants w,
      (Choosing.run closure schedule).asked.contains (c.name, i.2) =
        i.1.isAsked (closure.selections schedule c) := by
    intro i hi
    rw [Bool.eq_iff_iff, List.contains_iff_mem]
    exact mem_asked hc (List.mem_filter.mp hi).1
  have hfind : (c.occupants w).find? (fun i =>
      (Choosing.run closure schedule).asked.contains (c.name, i.2)) =
        (c.occupants w).find? fun i => i.1.isAsked (closure.selections schedule c) := by
    rw [← List.head?_filter, List.filter_congr hasked, List.head?_filter]
  rw [Component.chosen?, hfind, Option.map_or, Component.holder?, ← c.map_fst_occupants,
    List.find?_map, List.getLast?_map]
  rfl

/-- The alternate of a resolved definition is that of the implementation that holds its slot. -/
theorem alternate_of_variant (hc : c ∈ closure.components.values) {ir : ShaderIR}
    (hir : (closure.variant schedule).ir = some ir) {d : Definition} (hd : d ∈ ir.definitions)
    (hcomponent : d.component = c.name) :
    (c.holder? (closure.selections schedule c) d.world).map Implementation.alternate =
      some d.alternate := by
  obtain ⟨hp, _, _⟩ := pruned_of_variant hir
  have hw := closure.wellFormed_placed schedule
  obtain ⟨d, hlive, rfl⟩ := hp.mem_iff.mp hd
  obtain ⟨c', hc', hcore⟩ := decided hc schedule
  have hname : c.core.name = c'.core.name := congrArg Component.name hcore
  obtain ⟨first, hplaced⟩ := ShaderIR.placedAt_ofComponents closure.name closure.pipeline
    hc'
  obtain ⟨i, hi, hdef⟩ := (hplaced _).survivor hw hlive.mem (hw.live_survivor hlive)
    (hcomponent.trans hname)
  have halternate : d.alternate = i.1.alternate := by rw [hdef]; rfl
  have hchosen := congrArg (Option.map fun i => i.1.alternate) hi
  rw [← c'.alternate_chosen?_core, ← hcore, c.alternate_chosen?_core] at hchosen
  rw [← chosen?_eq hc, Option.map_map]
  show (c.chosen? (Choosing.run closure schedule).asked d.world).map _ = some d.alternate
  rw [halternate]
  exact hchosen

end Closure

/-- An implementation of another alternate, which the selection for another world asks for, stands
before all that were selected for this one. -/
def Component.Preempted (c : Component) (selections : List Selection) (w a : String) : Prop :=
  ∃ l₁ i l₂, c.implementations = l₁ ++ i :: l₂ ∧ i.worlds.contains w = true ∧
    i.alternateName ≠ a ∧
    (∃ s ∈ selections, s.world ≠ w ∧ s.alternateName = i.alternateName ∧
      i.worlds.contains s.world = true) ∧
    ∀ k ∈ l₁, k.alternateName = a → k.worlds.contains w = false

/-- If anything that occupies the world is asked for, the first of it holds the slot. -/
theorem Component.holder?_first {c : Component} {selections : List Selection} {w : String}
    {i j : Implementation} (hi : c.holder? selections w = some i) (hj : j ∈ c.implementations)
    (hjw : j.worlds.contains w = true) (hjasked : j.isAsked selections = true) :
    i.isAsked selections = true ∧ i.worlds.contains w = true ∧
      ∃ l₁ l₂, c.implementations = l₁ ++ i :: l₂ ∧
        ∀ k ∈ l₁, k.worlds.contains w = true → k.isAsked selections = false := by
  have hfind : (c.implementations.filter (·.worlds.contains w)).find? (·.isAsked selections) =
      some i := by
    rcases Option.or_eq_some_iff.mp hi with hfind | ⟨hnone, _⟩
    · exact hfind
    · exact absurd hjasked (List.find?_eq_none.mp hnone j (List.mem_filter.mpr ⟨hj, hjw⟩))
  rw [List.find?_filter, List.find?_eq_some_iff_append] at hfind
  obtain ⟨hpass, l₁, l₂, hsplit, hbefore⟩ := hfind
  obtain ⟨hw, hasked⟩ := of_decide_eq_true hpass
  refine ⟨hasked, hw, l₁, l₂, hsplit, fun k hk hkw => ?_⟩
  simpa [hkw] using hbefore k hk

theorem Component.holder?_alternate_iff {c : Component} {selections : List Selection}
    {w a : String} (hselected : ∃ s ∈ selections, s.world = w)
    (hagree : ∀ s ∈ selections, s.world = w → s.alternateName = a)
    (hoccupied : ∃ i ∈ c.implementations, i.alternateName = a ∧ i.worlds.contains w = true)
    {i : Implementation} (hi : c.holder? selections w = some i) :
    i.alternateName = a ↔ ¬ c.Preempted selections w a := by
  have hmarked : ∀ k : Implementation, k.alternateName = a → k.worlds.contains w = true →
      k.isAsked selections = true := by
    intro k hka hkw
    obtain ⟨s, hs, hsw⟩ := hselected
    refine List.any_eq_true.mpr ⟨s, hs, ?_⟩
    rw [hka, hagree s hs hsw, hsw, hkw]
    simp
  obtain ⟨j, hj, hja, hjw⟩ := hoccupied
  obtain ⟨hasked, hw, l₁, l₂, hsplit, hbefore⟩ := holder?_first hi hj hjw (hmarked j hja hjw)
  constructor
  · intro ha hpre
    obtain ⟨m₁, k, m₂, hsplit', hkw, hka, ⟨s, hs, _, hsk, hsw⟩, hm₁⟩ := hpre
    have hkasked : k.isAsked selections = true := by
      refine List.any_eq_true.mpr ⟨s, hs, ?_⟩
      rw [hsk, hsw]
      simp
    have hsame : (l₁ ++ [i]) ++ l₂ = m₁ ++ k :: m₂ := by
      rw [List.append_assoc, List.singleton_append, ← hsplit, hsplit']
    rcases Graph.split_append hsame with ⟨m, hm⟩ | hall
    · -- the other implementation is not after the holder, so it would hold the slot
      have hk : k ∈ l₁ ++ [i] := hm ▸ List.mem_append_right m₁ List.mem_cons_self
      rcases List.mem_append.mp hk with hk | hk
      · rw [hbefore k hk hkw] at hkasked
        cases hkasked
      · rw [List.mem_singleton] at hk
        exact hka (hk ▸ ha)
    · have hfalse := hm₁ i (hall i (by simp)) ha
      rw [hw] at hfalse
      cases hfalse
  · intro hpre
    by_contra ha
    obtain ⟨s, hs, hpass⟩ := List.any_eq_true.mp hasked
    obtain ⟨hsi, hsw⟩ := Bool.and_eq_true_iff.mp hpass
    have hsi : i.alternateName = s.alternateName := of_decide_eq_true hsi
    refine hpre ⟨l₁, i, l₂, hsplit, hw, ha, ⟨s, hs, ?_, hsi.symm, hsw⟩, ?_⟩
    · intro hworld
      exact ha (hsi.trans (hagree s hs hworld))
    · intro k hk hka
      cases hkw : k.worlds.contains w with
      | false => rfl
      | true =>
        have hnot := hbefore k hk hkw
        rw [hmarked k hka hkw] at hnot
        cases hnot

/-- Where the legal selections of a world agree on an alternate that some implementation can offer
there, a variant has that alternate in the slot, unless an implementation that was asked for in
another world preempts it. -/
theorem Closure.selected_alternate_iff {closure : Closure} {schedule : Schedule} {c : Component}
    (hc : c ∈ closure.components.values) {w a : String}
    (hselected : ∃ s ∈ closure.selections schedule c, s.world = w)
    (hagree : ∀ s ∈ closure.selections schedule c, s.world = w → s.alternateName = a)
    (hoccupied : ∃ i ∈ c.implementations, i.alternateName = a ∧ i.worlds.contains w = true)
    {ir : ShaderIR} (hir : (closure.variant schedule).ir = some ir) {d : Definition}
    (hd : d ∈ ir.definitions) (hcomponent : d.component = c.name) (hworld : d.world = w) :
    d.alternate.getD "" = a ↔ ¬ c.Preempted (closure.selections schedule c) w a := by
  have halternate := alternate_of_variant hc hir hd hcomponent
  rw [hworld] at halternate
  obtain ⟨i, hi, hsame⟩ := Option.map_eq_some_iff.mp halternate
  rw [← Component.holder?_alternate_iff hselected hagree hoccupied hi, ← hsame]
  rfl

/-- A light that is flat or, in the later stage only, of the phong kind. -/
def lightComponent : Component where
  name := "light"
  dataType := "vec3"
  aliases := ["light"]
  constrained := .ofList ["vs", "fs"]
  implementations :=
    [{ alternate := some "flat", worlds := .ofList ["vs", "fs"],
       exported := .ofList ["vs", "fs"], body := .expr (.literal "0" {}) },
      { alternate := some "phong", worlds := .ofList ["fs"], exported := .ofList ["fs"],
        body := .expr (.literal "1" {}) }]

def lightShader : Closure :=
  Closure.addComponent
    { name := "lit"
      pipeline :=
        { name := "forward"
          worlds := .ofList [("vs", { name := "vs" }), ("fs", { name := "fs" })]
          imports := [⟨"interpolate", "vs", "fs"⟩] } }
    lightComponent

/-- Flat in the earlier stage, phong in the later. -/
def lightSchedule : Schedule where
  choices := .ofList [("light",
    [{ world := "vs", alternate := some "flat" }, { world := "fs", alternate := some "phong" }])]

/-- The later stage has a light in the variant, and it is the flat one. -/
theorem variant_lightShader : ∃ ir, (lightShader.variant lightSchedule).ir = some ir ∧
    ∃ d ∈ ir.definitions, d.component = lightComponent.name ∧ d.world = "fs" ∧
      d.alternate = some "flat" := by
  have h : (lightShader.variant lightSchedule).ir =
      some ((lightShader.placed lightSchedule).relink lightShader.components.contains).prune :=
    Closure.variant_of_round (Option.isNone_iff_eq_none.mp (by decide +kernel))
      (List.isEmpty_iff.mp (by decide +kernel))
  exact ⟨_, h, by decide +kernel⟩

/-- Phong is the only kind that was selected for the later stage, and it could be had there. -/
theorem selections_lightShader :
    (∃ s ∈ lightShader.selections lightSchedule lightComponent, s.world = "fs") ∧
    (∀ s ∈ lightShader.selections lightSchedule lightComponent,
      s.world = "fs" → s.alternateName = "phong") ∧
    ∃ i ∈ lightComponent.implementations,
      i.alternateName = "phong" ∧ i.worlds.contains "fs" = true := by
  decide +kernel

theorem selected_alternate_iff_lightShader :
    ∃ ir, (lightShader.variant lightSchedule).ir = some ir ∧
    ∃ d ∈ ir.definitions, d.component = lightComponent.name ∧ d.world = "fs" ∧
      (d.alternate.getD "" = "phong" ↔
        ¬ lightComponent.Preempted (lightShader.selections lightSchedule lightComponent) "fs"
          "phong") := by
  obtain ⟨ir, hir, d, hd, hcomponent, hworld, _⟩ := variant_lightShader
  obtain ⟨hselected, hagree, hoccupied⟩ := selections_lightShader
  refine ⟨ir, hir, d, hd, hcomponent, hworld, ?_⟩
  exact Closure.selected_alternate_iff List.mem_cons_self hselected hagree
    hoccupied hir hd hcomponent hworld

/-- Selections for a slot that agree do not decide it: the flat light was asked for too, if only for
the earlier stage, and it is declared first. -/
theorem not_selection_decides_slot :
    ¬ ∀ (closure : Closure) (schedule : Schedule) (c : Component) (w a : String),
      c ∈ closure.components.values →
      (∃ s ∈ closure.selections schedule c, s.world = w) →
      (∀ s ∈ closure.selections schedule c, s.world = w → s.alternateName = a) →
      (∃ i ∈ c.implementations, i.alternateName = a ∧ i.worlds.contains w = true) →
      ∀ ir, (closure.variant schedule).ir = some ir → ∀ d ∈ ir.definitions,
        d.component = c.name → d.world = w → d.alternate.getD "" = a := by
  intro h
  obtain ⟨ir, hir, d, hd, hcomponent, hworld, halternate⟩ := variant_lightShader
  obtain ⟨hselected, hagree, hoccupied⟩ := selections_lightShader
  have hphong := h lightShader lightSchedule lightComponent "fs" "phong"
    List.mem_cons_self hselected hagree hoccupied ir hir d hd hcomponent hworld
  rw [halternate] at hphong
  revert hphong
  decide

end ShaderVariants
