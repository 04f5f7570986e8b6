import ShaderVariants.Catalog
import ShaderVariants.Proofs.Agreement

/-! # When the default schedule reproduces the default variant

The catalog records the world that a variant settled on, but not the alternate, and the default
schedule then selects the unnamed one. Without a schedule, slots go to whoever was declared last. So
the default schedule gives the same variant only if no unnamed implementation that it asks for has
to stand back for one declared later, in any slot of the variant; and it is accepted without
complaint only if the default worlds are legal, which no declaration guarantees
(`defaults_reproduce_iff`). -/
namespace ShaderVariants

/-! ## The schedule of the defaults -/

/-- The world that a choice offers as default, with its name. -/
def Choice.pick? (choice : Choice) : Option (String × String) :=
  choice.defaultWorld.map fun world => (choice.name, world)

namespace Catalog

theorem defaultSchedule_eq (catalog : Catalog) : catalog.defaultSchedule =
    (catalog.choices.filterMap Choice.pick?).foldl
      (fun s p => s.select p.1 [{ world := p.2 }]) {} := by
  rw [defaultSchedule, List.foldl_filterMap]
  congr 1
  funext s choice
  unfold Choice.pick?
  cases choice.defaultWorld <;> rfl

theorem entries_selects {picks : List (String × String)} (h : (picks.map Prod.fst).Nodup) :
    let schedule := picks.foldl (fun s p => s.select p.1 [{ world := p.2 }]) ({} : Schedule)
    schedule.attributes = ∅ ∧
      schedule.choices.entries = picks.map fun p => (p.1, [{ world := p.2 }]) := by
  have hfold : ∀ (picks : List (String × String)) (s : Schedule),
      picks.foldl (fun s p => s.select p.1 [{ world := p.2 }]) s =
        ⟨picks.foldl (fun m p => m.update p.1 [] (· ++ [{ world := p.2 }])) s.choices,
          s.attributes⟩ := by
    intro picks
    induction picks with
    | nil => intro s; rfl
    | cons p picks ih => intro s; exact ih _
  intro schedule
  have hschedule : schedule = _ := hfold picks {}
  rw [hschedule]
  refine ⟨rfl, ?_⟩
  exact OrderedMap.entries_foldl_update Prod.fst []
    (fun p l => l ++ [({ world := p.2 } : Selection)]) picks ∅ h

theorem choices_ofClosures (closure : Closure) :
    (ofClosures [closure] none).choices = closure.choices := by
  simp [ofClosures, choices, OrderedMap.ofList, OrderedMap.insertAll, OrderedMap.insert,
    OrderedMap.put, OrderedMap.values, OrderedMap.empty]

end Catalog

namespace Closure

/-- No choice name stands for two components. -/
def Unshared (closure : Closure) : Prop :=
  ∀ c ∈ closure.components.values, ∀ c' ∈ closure.components.values,
    ∀ a ∈ c.aliases, a ∈ c'.aliases → c = c'

/-- The default schedule of a closure that keeps the variant it has without a schedule. -/
def defaults (closure : Closure) (ir : ShaderIR) : Schedule :=
  (Catalog.ofClosures [{ (closure.variant {}).closure with ir := some ir }] none).defaultSchedule

/-- The world that a variant settled on for a component, if that is open to choice. -/
def settled? (closure : Closure) (ir : ShaderIR) (c : Component) : Option String :=
  if c.isChoosable then ({ closure with ir := some ir } : Closure).defaultWorld? c.name else none

/-- The choice name of a component with the world that a variant settled on. -/
def pick? (closure : Closure) (ir : ShaderIR) (c : Component) : Option (String × String) :=
  (closure.settled? ir c).bind fun w => c.aliases.head?.map fun a => (a, w)

variable {closure : Closure} {ir : ShaderIR} {c : Component}

theorem pick?_eq_some_iff {p : String × String} : closure.pick? ir c = some p ↔
    c.aliases.head? = some p.1 ∧ closure.settled? ir c = some p.2 := by
  unfold pick?
  cases closure.settled? ir c <;> cases c.aliases.head? <;> simp [Prod.ext_iff]

/-- What is open to choice has a name for it. -/
theorem head_of_settled {w : String} (h : closure.settled? ir c = some w) :
    ∃ a, c.aliases.head? = some a := by
  unfold settled? at h
  split at h
  · rename_i hopen
    cases hl : c.aliases with
    | nil => simp [Component.isChoosable, hl] at hopen
    | cons a l => exact ⟨a, rfl⟩
  · cases h

theorem picks_choices (closure : Closure) (ir : ShaderIR) :
    (({ (closure.variant {}).closure with ir := some ir } : Closure).choices).filterMap
        Choice.pick? = closure.components.values.filterMap (closure.pick? ir) := by
  have hvalues : (Choosing.run closure {}).components.values =
      closure.components.values.map Component.pinFixed := OrderedMap.values_map _ _
  rw [closure_variant, choices, hvalues, List.filter_map, List.filterMap_map,
    List.filterMap_filterMap, List.filterMap_filter]
  refine List.filterMap_congr fun c _ => ?_
  have hopen : (Component.isChoosable ∘ Component.pinFixed) c = c.isChoosable := rfl
  rw [hopen, pick?, settled?]
  cases c.isChoosable with
  | false => rfl
  | true =>
    show (c.aliases.head?.map fun a => (⟨a, c.pinFixed.options,
      ({ closure with ir := some ir } : Closure).defaultWorld? c.name⟩ : Choice)).bind
        Choice.pick? = _
    cases c.aliases.head? <;>
      cases ({ closure with ir := some ir } : Closure).defaultWorld? c.name <;> rfl

theorem nodup_picks (hu : closure.Unshared) (ir : ShaderIR) :
    ((closure.components.values.filterMap (closure.pick? ir)).map Prod.fst).Nodup := by
  refine List.pairwise_map.mpr (List.pairwise_filterMap.mpr ?_)
  have hnames := List.pairwise_map.mp closure.components.nodup_names
  refine hnames.imp_of_mem fun {c c'} hc hc' hne => ?_
  intro p hp p' hp' he
  have ha := List.mem_of_mem_head? (pick?_eq_some_iff.mp hp).1
  have ha' := List.mem_of_mem_head? (pick?_eq_some_iff.mp hp').1
  exact hne (congrArg Component.name (hu c hc c' hc' p.1 ha (he ▸ ha')))

theorem entries_defaults (hu : closure.Unshared) (ir : ShaderIR) :
    (closure.defaults ir).attributes = ∅ ∧ (closure.defaults ir).choices.entries =
      (closure.components.values.filterMap (closure.pick? ir)).map fun p =>
        (p.1, [{ world := p.2 }]) := by
  rw [defaults, Catalog.defaultSchedule_eq, Catalog.choices_ofClosures, picks_choices]
  exact Catalog.entries_selects (nodup_picks hu ir)

/-- A choice name that is not shared leads to its component. -/
theorem ofChoice?_eq (hu : closure.Unshared) (hc : c ∈ closure.components.values) {a : String}
    (ha : a ∈ c.aliases) :
    closure.components.aliasIndex.find? a = some c.name ∧
      closure.components.ofChoice? a = some c := by
  have hfind : closure.components.aliasIndex.find? a = some c.name := by
    refine OrderedMap.find?_insertAll (fun e he hk => ?_) (Or.inr ?_)
    · obtain ⟨c', hc', he⟩ := List.mem_flatMap.mp he
      obtain ⟨a', ha', rfl⟩ := List.mem_map.mp he
      obtain rfl : a' = a := hk
      rw [hu c hc c' hc' a' ha ha']
    · refine List.mem_map.mpr ⟨(a, c.name), List.mem_flatMap.mpr ⟨c, hc, ?_⟩, rfl⟩
      exact List.mem_map_of_mem ha
  refine ⟨hfind, ?_⟩
  rw [Components.ofChoice?, hfind]
  exact Components.find?_name hc

theorem mem_selections_defaults (hu : closure.Unshared) (hc : c ∈ closure.components.values)
    {s : Selection} :
    s ∈ closure.selections (closure.defaults ir) c ↔
      ∃ w, closure.settled? ir c = some w ∧ c.constrained.contains w = true ∧
        s = { world := w } := by
  rw [selections, (entries_defaults hu ir).2, List.mem_flatMap]
  constructor
  · intro hparts
    obtain ⟨choice, hchoice, hs⟩ := hparts
    obtain ⟨hmem, halias⟩ := List.mem_filter.mp hchoice
    obtain ⟨p, hp, rfl⟩ := List.mem_map.mp hmem
    obtain ⟨c', hc', hpick⟩ := List.mem_filterMap.mp hp
    obtain ⟨hhead, hsettled⟩ := pick?_eq_some_iff.mp hpick
    -- the choice name is that of the component itself
    have hname := (ofChoice?_eq hu hc' (List.mem_of_mem_head? hhead)).1
    rw [of_decide_eq_true halias] at hname
    have hsame := Components.find?_name hc'
    rw [← Option.some.inj hname, Components.find?_name hc] at hsame
    obtain rfl := Option.some.inj hsame
    obtain ⟨hs, hlegal⟩ := List.mem_filter.mp hs
    obtain rfl := List.mem_singleton.mp hs
    exact ⟨p.2, hsettled, hlegal, rfl⟩
  · intro hparts
    obtain ⟨w, hsettled, hlegal, rfl⟩ := hparts
    obtain ⟨a, ha⟩ := head_of_settled hsettled
    refine ⟨(a, [{ world := w }]), List.mem_filter.mpr ⟨List.mem_map.mpr ⟨(a, w), ?_, rfl⟩, ?_⟩,
      List.mem_filter.mpr ⟨List.mem_cons_self, hlegal⟩⟩
    · exact List.mem_filterMap.mpr ⟨c, hc, pick?_eq_some_iff.mpr ⟨ha, hsettled⟩⟩
    · exact decide_eq_true (ofChoice?_eq hu hc (List.mem_of_mem_head? ha)).1

theorem diagnostics_defaults_iff (hu : closure.Unshared) (ir : ShaderIR) :
    (Choosing.run closure (closure.defaults ir)).diagnostics = [] ↔
      ∀ c ∈ closure.components.values, ∀ w, closure.settled? ir c = some w →
        c.constrained.contains w = true := by
  rw [Choosing.diagnostics_run_eq_nil_iff, (entries_defaults hu ir).2]
  constructor
  · intro hlegal c hc w hsettled
    obtain ⟨a, ha⟩ := head_of_settled hsettled
    have hmem : (a, w) ∈ closure.components.values.filterMap (closure.pick? ir) :=
      List.mem_filterMap.mpr ⟨c, hc, pick?_eq_some_iff.mpr ⟨ha, hsettled⟩⟩
    exact hlegal _ (List.mem_map_of_mem hmem) c
      (ofChoice?_eq hu hc (List.mem_of_mem_head? ha)).2 _ List.mem_cons_self
  · intro hlegal choice hchoice c' htarget s hs
    obtain ⟨p, hp, rfl⟩ := List.mem_map.mp hchoice
    obtain ⟨c, hc, hpick⟩ := List.mem_filterMap.mp hp
    obtain ⟨hhead, hsettled⟩ := pick?_eq_some_iff.mp hpick
    rw [(ofChoice?_eq hu hc (List.mem_of_mem_head? hhead)).2] at htarget
    obtain rfl := Option.some.inj htarget
    obtain rfl := List.mem_singleton.mp hs
    exact hlegal c hc p.2 hsettled

end Closure

/-! ## Who holds the slots under it -/

/-- An unnamed implementation that may occupy both worlds has one declared after it that may occupy
the second: asking for the unnamed one in the first world gives it the slot of the other in the
second. -/
def Component.Overtaken (c : Component) (asked w : String) : Prop :=
  ∃ i ∈ (c.implementations.filter (·.worlds.contains w)).dropLast,
    i.alternateName = "" ∧ i.worlds.contains asked = true

instance (c : Component) (asked w : String) : Decidable (c.Overtaken asked w) :=
  inferInstanceAs (Decidable (∃ i ∈ _, _))

namespace Closure
variable {closure : Closure} {ir : ShaderIR} {c : Component} {schedule : Schedule}

theorem winner?_eq_iff (hc : c ∈ closure.components.values) {first : Nat} {w : String} :
    c.winner? (Choosing.run closure schedule).asked first w = c.winner? [] first w ↔
      ∀ i ∈ (c.implementations.filter (·.worlds.contains w)).dropLast,
        i.isAsked (closure.selections schedule c) = false := by
  have hfst : (c.entrants first w).map (fun e => e.1.1) =
      c.implementations.filter (·.worlds.contains w) := by
    rw [← c.map_fst_occupants, ← c.map_fst_entrants first, List.map_map]
    rfl
  rw [Component.winner?_eq_iff, ← hfst, ← List.map_dropLast, List.forall_mem_map]
  refine forall_congr' fun e => imp_congr_right fun he => ?_
  have hoccupant : e.1 ∈ c.occupants w := by
    rw [← c.map_fst_entrants first]
    exact List.mem_map_of_mem (List.dropLast_subset _ he)
  rw [← Bool.not_eq_true, ← Bool.not_eq_true, List.contains_iff_mem,
    mem_asked hc (List.mem_filter.mp hoccupant).1]

theorem isAsked_defaults_iff (hu : closure.Unshared) (hc : c ∈ closure.components.values)
    {i : Implementation} :
    i.isAsked (closure.selections (closure.defaults ir) c) = true ↔
      ∃ w, closure.settled? ir c = some w ∧ c.constrained.contains w = true ∧
        i.alternateName = "" ∧ i.worlds.contains w = true := by
  rw [Implementation.isAsked, List.any_eq_true]
  constructor
  · intro hparts
    obtain ⟨s, hs, hpass⟩ := hparts
    obtain ⟨w, hsettled, hlegal, rfl⟩ := (mem_selections_defaults hu hc).mp hs
    obtain ⟨hname, hworld⟩ := Bool.and_eq_true_iff.mp hpass
    exact ⟨w, hsettled, hlegal, of_decide_eq_true hname, hworld⟩
  · intro hparts
    obtain ⟨w, hsettled, hlegal, hname, hworld⟩ := hparts
    refine ⟨{ world := w }, (mem_selections_defaults hu hc).mpr ⟨w, hsettled, hlegal, rfl⟩, ?_⟩
    exact Bool.and_eq_true_iff.mpr ⟨decide_eq_true hname, hworld⟩

theorem placedAt_bare (hc : c ∈ closure.components.values) :
    ∃ first, ∀ choices, (closure.placed ⟨choices, ∅⟩).PlacedAt
      (Choosing.run closure ⟨choices, ∅⟩).asked c first := by
  obtain ⟨first, hplaced⟩ := placedAt hc ∅
  have hbare : c.attach (closure.added ∅ c.name) = c := c.attach_nil
  rw [hbare] at hplaced
  exact ⟨first, hplaced⟩

theorem winner_of_pruned {placed : ShaderIR} {isComponent : String → Bool}
    {asked : List (String × Nat)} {first : Nat} (h : placed.WellFormed)
    (hplaced : placed.PlacedAt asked c first) (hp : placed.Pruned isComponent ir)
    {d : Definition} (hd : d ∈ ir.definitions) (hcomponent : d.component = c.name) :
    ∃ e, c.winner? asked first d.world = some e ∧ e.2 = d.id := by
  obtain ⟨d, hlive, rfl⟩ := hp.mem_iff.mp hd
  obtain ⟨e, he, hdef⟩ := hplaced.eq_winner h hlive.mem (h.live_survivor hlive) hcomponent
  exact ⟨e, he, (congrArg Definition.id hdef).symm⟩

/-- Choices keep the variant that a closure has without a schedule iff they ask, in the slots of the
variant, for no occupant but the last. -/
theorem same_definitions_iff (hir : (closure.variant {}).ir = some ir)
    (choices : OrderedMap String (List Selection)) :
    (∃ ir', (closure.variant ⟨choices, ∅⟩).ir = some ir' ∧ ir'.definitions = ir.definitions) ↔
      ∀ c ∈ closure.components.values, ∀ d ∈ ir.definitions, d.component = c.name →
        ∀ i ∈ (c.implementations.filter (·.worlds.contains d.world)).dropLast,
          i.isAsked (closure.selections ⟨choices, ∅⟩ c) = false := by
  obtain ⟨hp, _, _⟩ := pruned_of_variant hir
  have hw := closure.wellFormed_placed {}
  have hw' := closure.wellFormed_placed ⟨choices, ∅⟩
  constructor
  · intro hparts c hc d hd hcomponent
    obtain ⟨ir', hir', hsame⟩ := hparts
    obtain ⟨hp', _, _⟩ := pruned_of_variant hir'
    obtain ⟨first, hplaced⟩ := placedAt_bare hc
    obtain ⟨e, he, hid⟩ := winner_of_pruned hw (hplaced ∅) hp hd hcomponent
    obtain ⟨e', he', hid'⟩ := winner_of_pruned hw' (hplaced choices) hp' (hsame ▸ hd) hcomponent
    exact (winner?_eq_iff hc).mp (Component.winner?_eq_of_id he he' (hid.trans hid'.symm))
  · intro hkeep
    refine variant_of_agrees hir (agrees_of_live fun d hlive => ?_)
    have hs := hw.live_survivor hlive
    obtain ⟨c, hc, hname⟩ := declared_of_survivor (ShaderIR.isSurvivor_iff.mp hs)
    obtain ⟨first, hplaced⟩ := placedAt_bare hc
    obtain ⟨e, he, hdef⟩ := (hplaced ∅).eq_winner hw hlive.mem hs hname.symm
    have hd := hp.mem_iff.mpr ⟨d, hlive, rfl⟩
    have he' : c.winner? (Choosing.run closure ⟨choices, ∅⟩).asked first d.world = some e :=
      ((winner?_eq_iff hc).mpr (hkeep c hc _ hd hname.symm)).trans he
    have hmem := (hplaced choices).mem_winner he'
    have hsurvivor := (hplaced choices).survivorId?_eq d.world
    rw [he', hname] at hsurvivor
    rw [pipeline_placed] at hmem hdef
    refine ⟨hdef ▸ hmem, ShaderIR.isSurvivor_iff.mpr (hsurvivor.trans ?_)⟩
    exact congrArg some (congrArg Definition.id hdef).symm

/-- The default schedule is accepted and gives the default variant again iff every world that it
selects is legal, and no slot of the variant is overtaken by an implementation that it asks for. -/
theorem defaults_reproduce_iff (hu : closure.Unshared) (hir : (closure.variant {}).ir = some ir) :
    ((closure.variant (closure.defaults ir)).diagnostics = [] ∧
      ∃ ir', (closure.variant (closure.defaults ir)).ir = some ir' ∧
        ir'.definitions = ir.definitions) ↔
      ∀ c ∈ closure.components.values, ∀ w, closure.settled? ir c = some w →
        c.constrained.contains w = true ∧
          ∀ d ∈ ir.definitions, d.component = c.name → ¬ c.Overtaken w d.world := by
  have hbare : (⟨(closure.defaults ir).choices, ∅⟩ : Schedule) = closure.defaults ir := by
    rw [← (entries_defaults hu ir).1]
  have hsame := same_definitions_iff hir (closure.defaults ir).choices
  rw [hbare] at hsame
  have hlegal := diagnostics_defaults_iff hu ir
  constructor
  · intro hparts c hc w hsettled
    obtain ⟨hdiagnostics, hir'⟩ := hparts
    have hkeep := hsame.mp hir'
    obtain ⟨_, hir', _⟩ := hir'
    rw [diagnostics_of_variant hir'] at hdiagnostics
    have hw := hlegal.mp hdiagnostics c hc w hsettled
    refine ⟨hw, fun d hd hcomponent hover => ?_⟩
    obtain ⟨i, hi, hname, hworld⟩ := hover
    have hasked := (isAsked_defaults_iff hu hc).mpr ⟨w, hsettled, hw, hname, hworld⟩
    rw [hkeep c hc d hd hcomponent i hi] at hasked
    cases hasked
  · intro hall
    have hir' := hsame.mpr fun c hc d hd hcomponent i hi => by
      refine Bool.eq_false_iff.mpr fun hasked => ?_
      obtain ⟨w, hsettled, _, hname, hworld⟩ := (isAsked_defaults_iff hu hc).mp hasked
      exact (hall c hc w hsettled).2 d hd hcomponent ⟨i, hi, hname, hworld⟩
    refine ⟨?_, hir'⟩
    obtain ⟨_, hir', _⟩ := hir'
    rw [diagnostics_of_variant hir']
    exact hlegal.mpr fun c hc w hsettled => (hall c hc w hsettled).1

end Closure

def tintComponent : Component where
  name := "tint"
  dataType := "vec3"
  aliases := ["tint"]
  constrained := .ofList ["vs"]
  implementations := [{ worlds := .ofList ["vs"], body := .expr (.literal "1" {}) }]

/-- The unnamed decal is declared last, and it reads the tint of the earlier stage. -/
def decalComponent : Component where
  name := "decal"
  dataType := "vec3"
  aliases := ["decal"]
  constrained := .ofList ["vs", "fs"]
  implementations :=
    [{ alternate := some "flat", worlds := .ofList ["vs", "fs"], exported := .ofList ["fs"],
       body := .expr (.literal "0" {}) },
      { worlds := .ofList ["fs"], body := .expr (.name "tint" {}) }]

def decalShader : Closure :=
  Closure.addComponent
    (Closure.addComponent
      { name := "decals"
        pipeline :=
          { name := "forward"
            worlds := .ofList [("vs", { name := "vs" }), ("fs", { name := "fs" })]
            imports := [⟨"interpolate", "vs", "fs"⟩] } }
      tintComponent)
    decalComponent

theorem unshared_decalShader : decalShader.Unshared := by
  have hvalues : decalShader.components.values = [tintComponent, decalComponent] := rfl
  intro c hc c' hc' a ha ha'
  simp only [hvalues, List.mem_cons, List.not_mem_nil, or_false] at hc hc'
  rcases hc with rfl | rfl <;> rcases hc' with rfl | rfl
  all_goals simp_all [tintComponent, decalComponent]

theorem defaults_reproduce_iff_decalShader :
    ∃ ir, (decalShader.variant {}).ir = some ir ∧
      (decalShader.variant (decalShader.defaults ir)).diagnostics = [] ∧
      ∃ ir', (decalShader.variant (decalShader.defaults ir)).ir = some ir' ∧
        ir'.definitions = ir.definitions := by
  have hir : (decalShader.variant {}).ir =
      some ((decalShader.placed {}).relink decalShader.components.contains).prune :=
    Closure.variant_of_round (Option.isNone_iff_eq_none.mp (by decide +kernel))
      (List.isEmpty_iff.mp (by decide +kernel))
  refine ⟨_, hir, (Closure.defaults_reproduce_iff unshared_decalShader hir).mpr ?_⟩
  have hall : ∀ c ∈ decalShader.components.values, (decalShader.settled?
      ((decalShader.placed {}).relink decalShader.components.contains).prune c).all (fun w =>
        decide (c.constrained.contains w = true ∧
          ∀ d ∈ ((decalShader.placed {}).relink decalShader.components.contains).prune.definitions,
            d.component = c.name → ¬ c.Overtaken w d.world)) = true := by
    decide +kernel
  intro c hc w hsettled
  have hc := hall c hc
  rw [hsettled] at hc
  exact of_decide_eq_true hc

/-- The alternate is declared after the unnamed albedo. -/
def albedoComponent : Component where
  name := "albedo"
  dataType := "vec3"
  aliases := ["albedo"]
  constrained := .ofList ["fs"]
  implementations :=
    [{ worlds := .ofList ["fs"], exported := .ofList ["fs"], body := .expr (.literal "0" {}) },
      { alternate := some "textured", worlds := .ofList ["fs"], exported := .ofList ["fs"],
        body := .expr (.literal "1" {}) }]

def albedoShader : Closure :=
  Closure.addComponent
    { name := "surface"
      pipeline := { name := "forward", worlds := .ofList [("fs", { name := "fs" })] } }
    albedoComponent

/-- Selects the world of the albedo. -/
def albedoSchedule : Schedule where
  choices := .ofList [("albedo", [{ world := "fs" }])]

/-- The albedo is textured in the default variant, and no longer so under the default schedule. -/
theorem not_defaults_reproduce :
    ¬ ∀ (closure : Closure) (ir : ShaderIR), closure.Unshared →
      (closure.variant {}).ir = some ir →
      (closure.variant (closure.defaults ir)).diagnostics = [] ∧
        ∃ ir', (closure.variant (closure.defaults ir)).ir = some ir' ∧
          ir'.definitions.map (fun d =>
            (d.component, d.world, d.alternate, d.body, d.isEntry, d.dependencies)) =
          ir.definitions.map fun d =>
            (d.component, d.world, d.alternate, d.body, d.isEntry, d.dependencies) := by
  intro h
  have hunshared : albedoShader.Unshared := by
    intro c hc c' hc' _ _ _
    exact (List.mem_singleton.mp hc).trans (List.mem_singleton.mp hc').symm
  have hir : (albedoShader.variant {}).ir =
      some ((albedoShader.placed {}).relink albedoShader.components.contains).prune :=
    Closure.variant_of_round (Option.isNone_iff_eq_none.mp (by decide +kernel))
      (List.isEmpty_iff.mp (by decide +kernel))
  obtain ⟨_, ir', hir', hsame⟩ := h albedoShader _ hunshared hir
  have hdefaults : albedoShader.defaults
      ((albedoShader.placed {}).relink albedoShader.components.contains).prune =
        albedoSchedule := by
    rw [Closure.defaults, Closure.closure_variant]
    decide +kernel
  rw [hdefaults, Closure.variant_of_round (Option.isNone_iff_eq_none.mp (by decide +kernel))
    (List.isEmpty_iff.mp (by decide +kernel))] at hir'
  cases hir'
  have halternates := congrArg (List.map fun d => d.2.2.1) hsame
  rw [List.map_map, List.map_map] at halternates
  revert halternates
  decide +kernel

end ShaderVariants
