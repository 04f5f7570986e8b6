import ShaderVariants.Proofs.Outputs

/-! # Definitions and legal worlds

Where a component may be placed is asked when worlds are pinned, when choices are applied and when
options are offered. It is not asked when implementations are placed: each gets a definition in all
worlds that it names. So definitions are in legal worlds as long as implementations name no others.
A component that was constrained to fewer worlds still has its slots in the rest, and one of them
stays in the variant iff something keeps it alive: an output that is declared there, or a reference
that looks there first (`legal_iff`). -/
namespace ShaderVariants

namespace Component

/-- Some implementation may occupy the world. -/
def occupies (c : Component) (w : String) : Bool := c.implementations.any (·.worlds.contains w)

theorem isSome_winner?_eq (c : Component) (asked : List (String × Nat)) (first : Nat)
    (w : String) : (c.winner? asked first w).isSome = c.occupies w := by
  have hnone : c.winner? asked first w = none ↔
      c.implementations.filter (·.worlds.contains w) = [] := by
    rw [winner?_eq_none_iff, ← List.map_eq_nil_iff (f := Prod.fst), map_fst_entrants,
      ← List.map_eq_nil_iff (f := Prod.fst), map_fst_occupants]
  rw [Bool.eq_iff_iff, Option.isSome_iff_ne_none, ne_eq, hnone, occupies, List.any_eq_true,
    List.filter_eq_nil_iff]
  simp

theorem occupies_attach (c : Component) (l : List (String × String)) (w : String) :
    (c.attach l).occupies w = c.occupies w := by
  rw [occupies, attach, List.any_map]
  rfl

end Component

namespace Closure

/-- The component of the name may be placed in the world. -/
def isLegal (closure : Closure) (name w : String) : Bool :=
  (closure.components.find? name).any (·.constrained.contains w)

/-- The component of the name has an implementation that may occupy the world. -/
def isOccupied (closure : Closure) (name w : String) : Bool :=
  (closure.components.find? name).any (·.occupies w)

/-- The world in which a reference finds a component: its own, or else the last declared one that
feeds it, of those that the component occupies. -/
def source? (closure : Closure) (name w : String) : Option String :=
  if closure.isOccupied name w then some w
  else (closure.pipeline.order.filter fun u =>
    closure.isOccupied name u && closure.pipeline.reaches u w).getLast?

/-- The value of the component has to be an output in the world: one of the implementations that may
occupy the world is exported there, or the world is abstract and an attribute asks for outputs. -/
def Requires (closure : Closure) (schedule : Schedule) (c : Component) (w : String) : Prop :=
  ∃ i ∈ c.implementations, i.worlds.contains w = true ∧ (i.exported.contains w = true ∨
    closure.pipeline.isAbstract w = true ∧ (i.attributes.pinned = true ∨
      closure.Pins schedule c.name ∨ closure.pipeline.isPinned w = true))

variable {closure : Closure} {schedule : Schedule} {ir : ShaderIR}

/-! ## What is placed where -/

/-- Every slot that can be occupied is. -/
theorem isSome_survivorId? (closure : Closure) (schedule : Schedule) (name w : String) :
    ((closure.placed schedule).survivorId? name w).isSome = closure.isOccupied name w := by
  unfold isOccupied
  cases hfind : closure.components.find? name with
  | none =>
    cases hs : (closure.placed schedule).survivorId? name w with
    | none => rfl
    | some id =>
      obtain ⟨c, hc, rfl⟩ := declared_of_survivor hs
      rw [Components.find?_name hc] at hfind
      cases hfind
  | some c =>
    obtain rfl := Components.name_of_find? hfind
    obtain ⟨first, hplaced⟩ :=
      placedAt (OrderedMap.mem_values_of_find? hfind) schedule.attributes
    have hsurvivor := (hplaced schedule.choices).survivorId?_eq w
    rw [Option.any_some, ← c.occupies_attach (closure.added schedule.attributes c.name)]
    refine (congrArg Option.isSome hsurvivor).trans ?_
    rw [Option.isSome_map, Component.isSome_winner?_eq]

theorem bind?_placed (closure : Closure) (schedule : Schedule) (name w : String) :
    (closure.placed schedule).bind? name w =
      (closure.source? name w).bind ((closure.placed schedule).survivorId? name) := by
  have hoccupied := closure.isSome_survivorId? schedule name
  simp only [ShaderIR.bind?_eq, hoccupied, pipeline_placed, source?]
  cases hs : (closure.placed schedule).survivorId? name w with
  | none =>
    have hfree : closure.isOccupied name w = false := by rw [← hoccupied, hs]; rfl
    simp [hfree]
  | some id =>
    have htaken : closure.isOccupied name w = true := by rw [← hoccupied, hs]; rfl
    simp [htaken, hs]

theorem isOccupied_of_source? {name w u : String} (h : closure.source? name w = some u) :
    closure.isOccupied name u = true := by
  unfold source? at h
  split at h
  · cases h
    assumption
  · obtain ⟨_, hpass⟩ := List.mem_filter.mp (List.mem_of_getLast? h)
    exact (Bool.and_eq_true_iff.mp hpass).1

/-- A reference binds to what holds the slot in the world where it finds the component. -/
theorem binds_iff {d e : Definition} :
    (closure.placed schedule).Binds closure.components.contains d e ↔
      e ∈ (closure.placed schedule).definitions ∧ (closure.placed schedule).isSurvivor e = true ∧
        ∃ n ∈ d.references closure.components.contains,
          n.1 = e.component ∧ closure.source? n.1 d.world = some e.world := by
  have hw := closure.wellFormed_placed schedule
  constructor
  · intro hbinds
    obtain ⟨he, n, hn, hbind⟩ := hbinds
    rw [bind?_placed] at hbind
    obtain ⟨u, hsource, hs⟩ := Option.bind_eq_some_iff.mp hbind
    obtain ⟨e', he', hid, hcomponent, hworld, hsurvivor⟩ := hw.survivor hs
    obtain rfl := hw.eq_of_id he he' hid.symm
    exact ⟨he, hsurvivor, n, hn, hcomponent.symm, hworld ▸ hsource⟩
  · intro hparts
    obtain ⟨he, hsurvivor, n, hn, hname, hsource⟩ := hparts
    refine ⟨he, n, hn, ?_⟩
    rw [bind?_placed, hsource, Option.bind_some, hname]
    exact ShaderIR.isSurvivor_iff.mp hsurvivor

/-! ## What a variant holds -/

theorem isOccupied_of_variant (hir : (closure.variant schedule).ir = some ir) {d : Definition}
    (hd : d ∈ ir.definitions) :
    closure.isOccupied d.component d.world = true := by
  obtain ⟨hp, _, _⟩ := pruned_of_variant hir
  obtain ⟨d, hlive, rfl⟩ := hp.mem_iff.mp hd
  have hs := (closure.wellFormed_placed schedule).live_survivor hlive
  refine (closure.isSome_survivorId? schedule d.component d.world).symm.trans ?_
  rw [ShaderIR.isSurvivor_iff.mp hs]
  rfl

/-- What a definition of a variant refers to is there, in the world where the reference finds it. -/
theorem read_of_variant (hir : (closure.variant schedule).ir = some ir) {d : Definition}
    (hd : d ∈ ir.definitions) {n : String × Span}
    (hn : n ∈ d.references closure.components.contains) {w : String}
    (hsource : closure.source? n.1 d.world = some w) :
    ∃ e ∈ ir.definitions, e.component = n.1 ∧ e.world = w := by
  obtain ⟨hp, _, _⟩ := pruned_of_variant hir
  obtain ⟨d, hlive, rfl⟩ := hp.mem_iff.mp hd
  have hoccupied := isOccupied_of_source? hsource
  rw [← closure.isSome_survivorId? schedule] at hoccupied
  obtain ⟨id, hid⟩ := Option.isSome_iff_exists.mp hoccupied
  obtain ⟨e, he, _, hcomponent, hworld, hsurvivor⟩ :=
    (closure.wellFormed_placed schedule).survivor hid
  have hbinds : (closure.placed schedule).Binds closure.components.contains d e :=
    binds_iff.mpr ⟨he, hsurvivor, n, hn, hcomponent.symm, hworld.symm ▸ hsource⟩
  exact ⟨_, hp.mem_iff.mpr ⟨e, hlive.bound hbinds, rfl⟩, hcomponent, hworld⟩

theorem entry_iff_requires {c : Component} (hc : c ∈ closure.components.values)
    (hir : (closure.variant schedule).ir = some ir) (w : String) :
    (∃ d ∈ ir.definitions, d.component = c.name ∧ d.world = w ∧ d.isEntry = true) ↔
      closure.Requires schedule c w := by
  rw [entry_iff_isOutput hc hir, Component.isOutput_attach, mem_added_iff]
  rfl

theorem isLegal_eq {c : Component} (hc : c ∈ closure.components.values) (w : String) :
    closure.isLegal c.name w = c.constrained.contains w := by
  rw [isLegal, Components.find?_name hc, Option.any_some]

/-- Legality spreads from the outputs along the references that find something in a legal world. -/
theorem isLegal_of_variant (hir : (closure.variant schedule).ir = some ir)
    (houtputs : ∀ c ∈ closure.components.values, ∀ w, closure.Requires schedule c w →
      w ∈ c.constrained)
    (hreads : ∀ d ∈ ir.definitions, closure.isLegal d.component d.world = true →
      ∀ n ∈ d.references closure.components.contains,
        ∀ w ∈ closure.source? n.1 d.world, closure.isLegal n.1 w = true) :
    ∀ d ∈ ir.definitions, closure.isLegal d.component d.world = true := by
  obtain ⟨hp, _, _⟩ := pruned_of_variant hir
  intro d' hd'
  obtain ⟨d, hlive, rfl⟩ := hp.mem_iff.mp hd'
  clear hd'
  -- from entries to what they read, as it became live
  induction hlive with
  | @entry d hd hentry hsurvivor =>
    have hmem := hp.mem_iff.mpr ⟨d, .entry hd hentry hsurvivor, rfl⟩
    obtain ⟨c, hc, hname⟩ := declared_of_variant hir hmem
    have hrequires := (entry_iff_requires hc hir d.world).mp
      ⟨_, hmem, hname.symm, rfl, hentry⟩
    show closure.isLegal d.component d.world = true
    rw [show d.component = c.name from hname.symm, isLegal_eq hc]
    exact OrderedSet.contains_iff.mpr (houtputs c hc d.world hrequires)
  | @bound d e hlive hbinds ih =>
    obtain ⟨_, _, n, hn, hname, hsource⟩ := binds_iff.mp hbinds
    have hlegal := hreads _ (hp.mem_iff.mpr ⟨d, hlive, rfl⟩) ih n hn e.world hsource
    rw [hname] at hlegal
    exact hlegal

/-- Where the definitions of a variant are. As long as implementations name legal worlds only, all
definitions are in legal worlds. In general they are iff every output is declared in a legal world,
and no definition that is in a legal world itself refers to a component that it finds in one that is
not. -/
theorem legal_iff (hir : (closure.variant schedule).ir = some ir) :
    ((∀ c ∈ closure.components.values, ∀ i ∈ c.implementations, ∀ w ∈ i.worlds,
        w ∈ c.constrained) →
      ∀ d ∈ ir.definitions, closure.isLegal d.component d.world = true) ∧
    ((∀ d ∈ ir.definitions, closure.isLegal d.component d.world = true) ↔
      (∀ c ∈ closure.components.values, ∀ w, closure.Requires schedule c w →
        w ∈ c.constrained) ∧
      ∀ d ∈ ir.definitions, closure.isLegal d.component d.world = true →
        ∀ n ∈ d.references closure.components.contains,
          ∀ w ∈ closure.source? n.1 d.world, closure.isLegal n.1 w = true) := by
  refine ⟨fun hworlds d hd => ?_, fun hlegal => ⟨?_, ?_⟩, fun hparts =>
    isLegal_of_variant hir hparts.1 hparts.2⟩
  · obtain ⟨c, hc, hname⟩ := declared_of_variant hir hd
    have hoccupied := isOccupied_of_variant hir hd
    rw [← hname, isOccupied, Components.find?_name hc, Option.any_some] at hoccupied
    obtain ⟨i, hi, hw⟩ := List.any_eq_true.mp hoccupied
    rw [← hname, isLegal_eq hc]
    exact OrderedSet.contains_iff.mpr
      (hworlds c hc i hi d.world (OrderedSet.contains_iff.mp hw))
  · intro c hc w hrequires
    obtain ⟨d, hd, hcomponent, rfl, _⟩ := (entry_iff_requires hc hir w).mpr hrequires
    have hmem := hlegal d hd
    rw [hcomponent, isLegal_eq hc] at hmem
    exact OrderedSet.contains_iff.mp hmem
  · intro d hd _ n hn w hsource
    obtain ⟨e, he, hcomponent, rfl⟩ := read_of_variant hir hd hn hsource
    rw [← hcomponent]
    exact hlegal e he

end Closure

/-- A mist that is no output, in both stages and then constrained to the earlier one. -/
def mistComponent : Component :=
  Component.constrainTo
    (Component.implement { name := "mist", dataType := "vec3", aliases := ["mist"] }
      { worlds := .ofList ["vs", "fs"], body := .expr (.literal "0" {}) })
    ["vs"]

/-- Reads the mist in the earlier stage. -/
def glowComponent : Component :=
  Component.implement { name := "glow", dataType := "vec3", aliases := ["glow"] }
    { worlds := .ofList ["vs"], exported := .ofList ["vs"], body := .expr (.name "mist" {}) }

def glowShader : Closure :=
  Closure.addComponent
    (Closure.addComponent { name := "glowing", pipeline := lightShader.pipeline } mistComponent)
    glowComponent

/-- The mist is constrained to fewer worlds than it occupies, but it is only read where it is legal,
so the slot in the later stage does not stay. -/
theorem legal_iff_glowShader : ∃ ir, (glowShader.variant {}).ir = some ir ∧
    (∃ d ∈ ir.definitions, d.component = "mist") ∧
    ∀ d ∈ ir.definitions, glowShader.isLegal d.component d.world = true := by
  have hir : (glowShader.variant {}).ir =
      some ((glowShader.placed {}).relink glowShader.components.contains).prune :=
    Closure.variant_of_round (Option.isNone_iff_eq_none.mp (by decide +kernel))
      (List.isEmpty_iff.mp (by decide +kernel))
  have houtputs : ∀ c ∈ glowShader.components.values, ∀ i ∈ c.implementations,
      ∀ w ∈ i.worlds.toList, (i.exported.contains w = true ∨
        glowShader.pipeline.isAbstract w = true) → c.constrained.contains w = true := by
    decide +kernel
  refine ⟨_, hir, by decide +kernel, (Closure.legal_iff hir).2.mpr ⟨?_, by decide +kernel⟩⟩
  intro c hc w hrequires
  obtain ⟨i, hi, hw, hout⟩ := hrequires
  exact OrderedSet.contains_iff.mp
    (houtputs c hc i hi w (OrderedSet.contains_iff.mp hw) (hout.imp_right And.left))

/-- The mist as an output in both stages. -/
def hazeComponent : Component :=
  Component.constrainTo
    (Component.implement { name := "haze", dataType := "vec3", aliases := ["haze"] }
      { worlds := .ofList ["vs", "fs"], exported := .ofList ["vs", "fs"],
        body := .expr (.literal "0" {}) })
    ["vs"]

def hazeShader : Closure :=
  Closure.addComponent { name := "hazy", pipeline := lightShader.pipeline } hazeComponent

/-- Constraining a component to some worlds does not keep its definitions out of the others. -/
theorem not_definitions_legal :
    ¬ ∀ (closure : Closure) (schedule : Schedule) (ir : ShaderIR),
      (closure.variant schedule).ir = some ir →
      ∀ d ∈ ir.definitions, closure.isLegal d.component d.world = true := by
  intro h
  have hir : (hazeShader.variant {}).ir =
      some ((hazeShader.placed {}).relink hazeShader.components.contains).prune :=
    Closure.variant_of_round (Option.isNone_iff_eq_none.mp (by decide +kernel))
      (List.isEmpty_iff.mp (by decide +kernel))
  have hlegal := h hazeShader {} _ hir
  revert hlegal
  decide +kernel

end ShaderVariants
