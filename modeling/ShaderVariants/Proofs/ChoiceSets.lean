import Mathlib.Data.Finset.Dedup
import ShaderVariants.Proofs.Attributed

/-! # Choices are read as a set

A schedule lists its choices, and each choice its selections. Applying them one after the other
leaves traces of the order, as each choice replaces what the one before it pinned. But pins have no
say in placement, and of the implementations that are asked for it only matters which they are. So
a variant depends on the choices as a set of (choice, world, alternate), of which only those count
that some component answers to (`variant_congr_asks`). -/
namespace ShaderVariants

/-- What a schedule asks of a closure: choice, world and alternate of every selection whose choice
is an alias of some component. The unnamed alternate is the empty text. -/
def Closure.asks (closure : Closure) (schedule : Schedule) : Finset (String × String × String) :=
  ((schedule.choices.entries.filter fun choice =>
    closure.components.values.any (·.aliases.contains choice.1)).flatMap fun choice =>
      choice.2.map fun s => (choice.1, s.world, s.alternateName)).toFinset

/-- A legal selection of the world and the alternate asks for the implementation at a position. -/
def Component.Offers (c : Component) (k : Nat) (world alternate : String) : Prop :=
  c.constrained.contains world = true ∧ ∃ i, c.implementations[k]? = some i ∧
    i.alternateName = alternate ∧ i.worlds.contains world = true

/-! ## Which implementations are asked for -/

theorem Component.mem_selected_iff_offers {c : Component} {selections : List Selection} {k : Nat} :
    k ∈ c.selected selections ↔ ∃ s ∈ selections, c.Offers k s.world s.alternateName := by
  simp only [selected, List.mem_flatMap, List.mem_filter, List.mem_map, Prod.exists,
    List.mem_zipIdx_iff_getElem?, isLegal, Bool.and_eq_true, decide_eq_true_eq]
  constructor
  · rintro ⟨s, ⟨hs, hlegal⟩, i, _, ⟨hi, halternate, hworld⟩, rfl⟩
    exact ⟨s, hs, hlegal, i, hi, halternate, hworld⟩
  · rintro ⟨s, hs, hlegal, i, hi, halternate, hworld⟩
    exact ⟨s, ⟨hs, hlegal⟩, i, k, ⟨hi, halternate, hworld⟩, rfl⟩

/-- A choice that stands for a component is an alias of some component. -/
theorem Components.any_aliases_of_ofChoice? {components : Components} {choice : String}
    {c : Component} (h : components.ofChoice? choice = some c) :
    components.values.any (·.aliases.contains choice) = true := by
  obtain ⟨name, hname, _⟩ := Option.bind_eq_some_iff.mp h
  have hkey : choice ∈ components.aliasIndex.keys :=
    List.mem_map_of_mem (f := Prod.fst) (OrderedMap.find?_eq_some_iff.mp hname)
  have hlisted := (OrderedMap.mem_keys_insertAll.mp hkey).resolve_left List.not_mem_nil
  obtain ⟨e, he, rfl⟩ := List.mem_map.mp hlisted
  obtain ⟨c, hc, he⟩ := List.mem_flatMap.mp he
  obtain ⟨a, ha, rfl⟩ := List.mem_map.mp he
  exact List.any_eq_true.mpr ⟨c, hc, List.contains_iff_mem.mpr ha⟩

theorem Closure.mem_asks {closure : Closure} {schedule : Schedule}
    {choice world alternate : String} :
    (choice, world, alternate) ∈ closure.asks schedule ↔
      closure.components.values.any (·.aliases.contains choice) = true ∧
        ∃ selections, (choice, selections) ∈ schedule.choices.entries ∧
          ∃ s ∈ selections, s.world = world ∧ s.alternateName = alternate := by
  simp only [asks, List.mem_toFinset, List.mem_flatMap, List.mem_filter, List.mem_map, Prod.exists,
    Prod.mk.injEq]
  constructor
  · rintro ⟨_, selections, ⟨hchoice, hany⟩, s, hs, rfl, rfl, rfl⟩
    exact ⟨hany, selections, hchoice, s, hs, rfl, rfl⟩
  · rintro ⟨hany, selections, hchoice, s, hs, rfl, rfl⟩
    exact ⟨choice, selections, ⟨hchoice, hany⟩, s, hs, rfl, rfl, rfl⟩

/-- The implementations that are asked for can be told from the set of what was asked. -/
theorem Choosing.mem_asked_run_iff_asks {closure : Closure} {schedule : Schedule} {n : String}
    {k : Nat} :
    (n, k) ∈ (run closure schedule).asked ↔
      ∃ choice world alternate, (choice, world, alternate) ∈ closure.asks schedule ∧
        ∃ c, closure.components.ofChoice? choice = some c ∧ c.name = n ∧
          c.Offers k world alternate := by
  simp only [(run_eq closure schedule).1, List.mem_flatMap]
  constructor
  · intro hasked
    obtain ⟨⟨choice, selections⟩, hchoice, hmem⟩ := hasked
    cases htarget : closure.components.ofChoice? choice with
    | none => simp [htarget] at hmem
    | some c =>
      rw [htarget] at hmem
      obtain ⟨_, hk, he⟩ := List.mem_map.mp hmem
      cases he
      obtain ⟨s, hs, hoffers⟩ := Component.mem_selected_iff_offers.mp hk
      refine ⟨choice, s.world, s.alternateName, Closure.mem_asks.mpr ?_, c, htarget, rfl, hoffers⟩
      exact ⟨Components.any_aliases_of_ofChoice? htarget, selections, hchoice, s, hs, rfl, rfl⟩
  · intro hasks
    obtain ⟨choice, world, alternate, hask, c, htarget, rfl, hoffers⟩ := hasks
    obtain ⟨_, selections, hchoice, s, hs, rfl, rfl⟩ := Closure.mem_asks.mp hask
    refine ⟨(choice, selections), hchoice, ?_⟩
    rw [htarget]
    exact List.mem_map.mpr ⟨k, Component.mem_selected_iff_offers.mpr ⟨s, hs, hoffers⟩, rfl⟩

/-! ## Placement only looks whether an implementation is among them -/

theorem ShaderIR.ofComponents_congr_asked {asked asked' : List (String × Nat)}
    (h : ∀ i, i ∈ asked ↔ i ∈ asked') (shader : String) (pipeline : Pipeline)
    (components : Components) :
    ofComponents shader pipeline components asked =
      ofComponents shader pipeline components asked' := by
  have hcontains : ∀ i, asked.contains i = asked'.contains i := by
    intro i
    rw [Bool.eq_iff_iff, List.contains_iff_mem, List.contains_iff_mem, h i]
  have hplace : place asked = place asked' := by
    funext ir c
    simp only [place, Component.candidates, hcontains]
  rw [ofComponents, hplace, ofComponents]

namespace Closure
variable {closure : Closure} {first second : Schedule}

theorem placed_congr_asks (hattributes : first.attributes = second.attributes)
    (hasks : closure.asks first = closure.asks second) :
    closure.placed first = closure.placed second := by
  have hasked : ∀ i, i ∈ (Choosing.run closure first).asked ↔
      i ∈ (Choosing.run closure second).asked := by
    intro i
    rw [Choosing.mem_asked_run_iff_asks, Choosing.mem_asked_run_iff_asks, hasks]
  rw [placed_eq, placed_eq, hattributes, ShaderIR.ofComponents_congr_asked hasked]

/-- Complaints about choices are of a kind of their own. -/
theorem ofCode_diagnostics_run (closure : Closure) (schedule : Schedule) {code : String}
    (hcode : code ≠ "invalid-choice-for-key") :
    (Choosing.run closure schedule).diagnostics.ofCode code = [] := by
  refine Diagnostics.ofCode_eq_nil fun d hd => ?_
  obtain ⟨_, _, _, rfl⟩ := Choosing.diagnostics_run closure schedule d hd
  exact hcode.symm

/-- All that is said of a variant but complaints about choices depends on the placed representation
alone. -/
theorem variant_congr_placed (h : closure.placed first = closure.placed second) :
    (closure.variant first).ir = (closure.variant second).ir ∧
      ∀ code ≠ "invalid-choice-for-key", (closure.variant first).diagnostics.ofCode code =
        (closure.variant second).diagnostics.ofCode code := by
  cases hr : (closure.placed second).resolve closure.components.contains with
  | ok ir =>
    obtain ⟨hir, hdiagnostics⟩ := variant_of_ok hr
    obtain ⟨hir', hdiagnostics'⟩ := variant_of_ok (h ▸ hr)
    refine ⟨hir'.trans hir.symm, fun code hcode => ?_⟩
    rw [hdiagnostics, hdiagnostics', ofCode_diagnostics_run closure _ hcode,
      ofCode_diagnostics_run closure _ hcode]
  | error reports =>
    obtain ⟨hir, hdiagnostics⟩ := variant_of_error hr
    obtain ⟨hir', hdiagnostics'⟩ := variant_of_error (h ▸ hr)
    refine ⟨hir'.trans hir.symm, fun code hcode => ?_⟩
    rw [hdiagnostics, hdiagnostics', Diagnostics.ofCode_append, Diagnostics.ofCode_append,
      ofCode_diagnostics_run closure _ hcode, ofCode_diagnostics_run closure _ hcode]

/-- Two schedules with the same attributes that ask the same of a closure, as a set, give the same
variant or the same reasons why there is none. -/
theorem variant_congr_asks (closure : Closure) {first second : Schedule}
    (hattributes : first.attributes = second.attributes)
    (hasks : closure.asks first = closure.asks second) :
    (closure.variant first).ir = (closure.variant second).ir ∧
      (closure.variant first).diagnostics.ofCode "component-definition-circularity" =
        (closure.variant second).diagnostics.ofCode "component-definition-circularity" ∧
      (closure.variant first).diagnostics.ofCode "unresolved-component-reference" =
        (closure.variant second).diagnostics.ofCode "unresolved-component-reference" := by
  obtain ⟨hir, hreports⟩ := variant_congr_placed (placed_congr_asks hattributes hasks)
  exact ⟨hir, hreports _ (by decide), hreports _ (by decide)⟩

end Closure

/-- The light of `lightShader`, under two choice names. -/
def lampShader : Closure :=
  lightShader.addComponent { lightComponent with aliases := ["light", "lamp"] }

/-- Flat and then phong, which is said twice, next to a world that is not legal. -/
def lampSchedule : Schedule where
  choices := .ofList
    [("light", [{ world := "vs", alternate := some "flat" }]),
      ("lamp", [{ world := "fs", alternate := some "phong" }, { world := "gs" },
        { world := "fs", alternate := some "phong", span := { line := 2 } }])]
  attributes := .ofList [("lamp", .ofList [("Quality", "high")])]

/-- The same the other way round, and a choice that the shader does not know. -/
def reversedLampSchedule : Schedule where
  choices := .ofList
    [("sun", [{ world := "vs" }]),
      ("lamp", [{ world := "gs", alternate := some "" },
        { world := "fs", alternate := some "phong" }]),
      ("light", [{ world := "vs", alternate := some "flat" }])]
  attributes := .ofList [("lamp", .ofList [("Quality", "high")])]

theorem variant_congr_asks_lampShader :
    lampSchedule.attributes = reversedLampSchedule.attributes ∧
      lampShader.asks lampSchedule = lampShader.asks reversedLampSchedule ∧
      (lampShader.variant lampSchedule).ir = (lampShader.variant reversedLampSchedule).ir := by
  have hattributes : lampSchedule.attributes = reversedLampSchedule.attributes := rfl
  have hasks : lampShader.asks lampSchedule = lampShader.asks reversedLampSchedule := by
    decide +kernel
  exact ⟨hattributes, hasks, (lampShader.variant_congr_asks hattributes hasks).1⟩

end ShaderVariants
