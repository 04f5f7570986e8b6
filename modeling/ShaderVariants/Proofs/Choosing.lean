import ShaderVariants.Proofs.Maps
import ShaderVariants.Variant.Choosing

/-! # What a schedule leaves alone

Choices and overrides change components where they stand, so the names of a closure's components
stay (`keys_run`). Of the components themselves only pins and attributes change (`core_run`), which
choices do not read. What is asked for and what is complained about can therefore be read off the
closure as it was declared, choice by choice (`run_eq`), and all complaints are about illegal worlds
(`diagnostics_run`). -/
namespace ShaderVariants

/-! ## Pins and attributes are all that changes -/

/-- A component without what schedules can change. -/
def Component.core (c : Component) : Component :=
  { c with
    pinned := ∅
    implementations := c.implementations.map fun i => { i with attributes := ∅ } }

theorem Component.name_core (c : Component) : c.core.name = c.name := rfl

theorem Component.core_overrideAttributes (c : Component) (attributes : Attributes) :
    (c.overrideAttributes attributes).core = c.core := by
  simp [core, overrideAttributes, Function.comp_def]

/-- What is selected does not depend on what schedules change. -/
theorem Component.selected_core (c : Component) (selections : List Selection) :
    c.core.selected selections = c.selected selections := by
  have hitem : ∀ s : Selection, (c.core.implementations.zipIdx.filter fun i =>
      i.1.alternateName = s.alternateName && i.1.worlds.contains s.world).map Prod.snd =
      (c.implementations.zipIdx.filter fun i =>
        i.1.alternateName = s.alternateName && i.1.worlds.contains s.world).map Prod.snd := by
    intro s
    rw [core, List.zipIdx_map, List.filter_map, List.map_map]
    rfl
  rw [selected, selected]
  simp only [hitem]
  rfl

theorem Component.mem_selected {c : Component} {selections : List Selection}
    {i : Implementation} {k : Nat} (hi : (i, k) ∈ c.implementations.zipIdx) :
    k ∈ c.selected selections ↔
      ∃ s ∈ selections.filter c.isLegal,
        (i.alternateName = s.alternateName && i.worlds.contains s.world) = true := by
  simp only [selected, List.mem_flatMap, List.mem_map]
  refine exists_congr fun s => and_congr_right fun _ => ?_
  constructor
  · intro hk
    obtain ⟨⟨j, _⟩, hj, rfl⟩ := hk
    obtain ⟨hmem, hasks⟩ := List.mem_filter.mp hj
    -- a position has one implementation
    have hget := List.mem_zipIdx_iff_getElem?.mp hmem
    rw [List.mem_zipIdx_iff_getElem?.mp hi] at hget
    cases hget
    exact hasks
  · intro hasks
    exact ⟨(i, k), List.mem_filter.mpr ⟨hi, hasks⟩, rfl⟩

/-- The component that a choice name stands for. -/
def Components.ofChoice? (components : Components) (choice : String) : Option Component :=
  (components.aliasIndex.find? choice).bind components.find?

namespace Choosing

/-- What every choice and every override keeps holds at the end. -/
theorem run_induction {P : Choosing → Prop} (closure : Closure) (schedule : Schedule)
    (hstart : P { components :=
      closure.components.reviseAll Component.pinFixed Component.name_pinFixed })
    (hchoose : ∀ s choice, P s → P (s.choose closure.name closure.components.aliasIndex choice))
    (hoverride : ∀ s choice, P s → P (s.override closure.components.aliasIndex choice)) :
    P (run closure schedule) := by
  rw [run]
  refine List.foldlRecOn _ _ ?_ fun s hs choice _ => hoverride s choice hs
  exact List.foldlRecOn _ _ hstart fun s hs choice _ => hchoose s choice hs

theorem core_choose (s : Choosing) (shader : String) (aliases : OrderedMap String String)
    (choice : String × List Selection) :
    (s.choose shader aliases choice).components.map Component.core =
      s.components.map Component.core := by
  unfold choose
  split
  · rfl
  · exact OrderedMap.map_modify fun c => rfl

theorem core_override (s : Choosing) (aliases : OrderedMap String String)
    (choice : String × Attributes) :
    (s.override aliases choice).components.map Component.core =
      s.components.map Component.core := by
  unfold override
  split
  · rfl
  · exact OrderedMap.map_modify fun c => c.core_overrideAttributes choice.2

theorem core_start (components : Components) :
    (components.reviseAll Component.pinFixed Component.name_pinFixed).map Component.core =
      components.map Component.core := by
  rw [Components.toOrderedMap_reviseAll, OrderedMap.map_map]
  rfl

theorem core_run (closure : Closure) (schedule : Schedule) :
    (run closure schedule).components.map Component.core =
      closure.components.map Component.core :=
  run_induction (P := fun s => s.components.map Component.core =
      closure.components.map Component.core) closure schedule (core_start closure.components)
    (fun s choice hs => (core_choose s _ _ choice).trans hs)
    (fun s choice hs => (core_override s _ choice).trans hs)

/-- A component by its name, before and after something that only changes pins and attributes. -/
theorem find?_of_core {m n : Components} (h : m.map Component.core = n.map Component.core)
    {name : String} {c : Component} (hc : m.find? name = some c) :
    ∃ c', n.find? name = some c' ∧ c.core = c'.core := by
  have hfind : (m.find? name).map Component.core = (n.find? name).map Component.core := by
    rw [← OrderedMap.find?_map, ← OrderedMap.find?_map, h]
  rw [hc] at hfind
  obtain ⟨c', hc', hcore⟩ := Option.map_eq_some_iff.mp hfind.symm
  exact ⟨c', hc', hcore.symm⟩

/-! ## What stays -/

theorem keys_run (closure : Closure) (schedule : Schedule) :
    (run closure schedule).components.keys = closure.components.keys := by
  rw [← OrderedMap.keys_map _ Component.core, core_run, OrderedMap.keys_map]

theorem contains_run (closure : Closure) (schedule : Schedule) :
    (run closure schedule).components.contains = closure.components.contains := by
  funext name
  rw [Bool.eq_iff_iff, OrderedMap.contains_iff, OrderedMap.contains_iff, keys_run]

/-! ## What each choice adds -/

theorem choice_of_core {c c' : Component} (h : c.core = c'.core) (shader : String)
    (choice : String × List Selection) :
    ((c'.selected choice.2).map fun k => (c'.name, k)) =
        ((c.selected choice.2).map fun k => (c.name, k)) ∧
      complain shader choice.1 c' choice.2 = complain shader choice.1 c choice.2 := by
  have hname : c.core.name = c'.core.name := congrArg Component.name h
  have hlegal : c.core.isLegal = c'.core.isLegal := congrArg Component.isLegal h
  constructor
  · rw [← c'.selected_core, ← h, c.selected_core, show c'.name = c.name from hname.symm]
  · rw [complain, complain, show c'.isLegal = c.isLegal from hlegal.symm]

/-- Pins and attributes do not change what a choice asks for or what is wrong with it. -/
theorem choose_of_core {components : Components} {s : Choosing}
    (hs : s.components.map Component.core = components.map Component.core) (shader : String)
    (choice : String × List Selection) :
    (s.choose shader components.aliasIndex choice).asked =
      s.asked ++ (components.ofChoice? choice.1).elim [] (fun c =>
        (c.selected choice.2).map fun k => (c.name, k)) ∧
    (s.choose shader components.aliasIndex choice).diagnostics =
      s.diagnostics ++ (components.ofChoice? choice.1).elim [] fun c =>
        complain shader choice.1 c choice.2 := by
  unfold choose target? Components.ofChoice?
  cases components.aliasIndex.find? choice.1 with
  | none => simp
  | some name =>
    cases hc : components.find? name with
    | none =>
      have hnone : s.components.find? name = none := by
        refine Option.eq_none_iff_forall_ne_some.mpr fun c hc' => ?_
        obtain ⟨c', hc', _⟩ := find?_of_core hs hc'
        rw [hc] at hc'
        cases hc'
      simp [hnone, hc]
    | some c =>
      obtain ⟨c', hc', hcore⟩ := find?_of_core hs.symm hc
      obtain ⟨hasked, hcomplain⟩ := choice_of_core hcore shader choice
      simp only [Option.bind_some, hc', Option.map_some, hc, Option.elim_some, hasked, hcomplain,
        and_self]

/-- All that is asked for and complained about, choice by choice, by what was declared alone. -/
theorem run_eq (closure : Closure) (schedule : Schedule) :
    (run closure schedule).asked = schedule.choices.entries.flatMap (fun choice =>
      (closure.components.ofChoice? choice.1).elim [] fun c =>
        (c.selected choice.2).map fun k => (c.name, k)) ∧
    (run closure schedule).diagnostics = schedule.choices.entries.flatMap fun choice =>
      (closure.components.ofChoice? choice.1).elim [] fun c =>
        complain closure.name choice.1 c choice.2 := by
  have hoverride : ∀ (l : List (String × Attributes)) (s : Choosing),
      (l.foldl (override closure.components.aliasIndex) s).asked = s.asked ∧
      (l.foldl (override closure.components.aliasIndex) s).diagnostics = s.diagnostics := by
    intro l s
    refine List.foldlRecOn (motive := fun s' : Choosing => s'.asked = s.asked ∧
      s'.diagnostics = s.diagnostics) l _ ⟨rfl, rfl⟩ fun s' hs choice _ => ?_
    unfold override
    split <;> exact hs
  have hchoose : ∀ (l : List (String × List Selection)) (s : Choosing),
      s.components.map Component.core = closure.components.map Component.core →
      (l.foldl (choose closure.name closure.components.aliasIndex) s).asked = s.asked ++
        l.flatMap (fun choice => (closure.components.ofChoice? choice.1).elim [] fun c =>
          (c.selected choice.2).map fun k => (c.name, k)) ∧
      (l.foldl (choose closure.name closure.components.aliasIndex) s).diagnostics =
        s.diagnostics ++ l.flatMap fun choice =>
          (closure.components.ofChoice? choice.1).elim [] fun c =>
            complain closure.name choice.1 c choice.2 := by
    intro l
    induction l with
    | nil => intro s _; simp
    | cons choice l ih =>
      intro s hs
      obtain ⟨hasked, hdiagnostics⟩ := ih _ ((core_choose s _ _ choice).trans hs)
      obtain ⟨hasked', hdiagnostics'⟩ := choose_of_core hs closure.name choice
      rw [List.foldl_cons, hasked, hdiagnostics, hasked', hdiagnostics', List.append_assoc,
        List.append_assoc, List.flatMap_cons, List.flatMap_cons]
      exact ⟨rfl, rfl⟩
  obtain ⟨hasked, hdiagnostics⟩ := hchoose schedule.choices.entries
    { components := closure.components.reviseAll Component.pinFixed Component.name_pinFixed }
    (core_start closure.components)
  rw [run, (hoverride _ _).1, (hoverride _ _).2, hasked, hdiagnostics]
  exact ⟨List.nil_append _, List.nil_append _⟩

theorem aliasIndex_of_core {m n : Components} (h : m.map Component.core = n.map Component.core) :
    m.aliasIndex = n.aliasIndex := by
  have hcore : ∀ m : Components, m.aliasIndex = .ofList ((m.map Component.core).values.flatMap
      fun c => c.aliases.map fun a => (a, c.name)) := by
    intro m
    rw [OrderedMap.values_map, List.flatMap_map]
    rfl
  rw [hcore, h, ← hcore]

/-- What is asked for and complained about does not depend on pins and attributes. -/
theorem run_of_core {closure closure' : Closure} (hname : closure'.name = closure.name)
    (h : closure'.components.map Component.core = closure.components.map Component.core)
    (schedule : Schedule) :
    (run closure' schedule).asked = (run closure schedule).asked ∧
      (run closure' schedule).diagnostics = (run closure schedule).diagnostics := by
  have htarget : ∀ choice : String × List Selection,
      ((closure'.components.ofChoice? choice.1).elim [] fun c =>
        (c.selected choice.2).map fun k => (c.name, k)) =
          ((closure.components.ofChoice? choice.1).elim [] fun c =>
            (c.selected choice.2).map fun k => (c.name, k)) ∧
      ((closure'.components.ofChoice? choice.1).elim [] fun c =>
        complain closure'.name choice.1 c choice.2) =
          ((closure.components.ofChoice? choice.1).elim [] fun c =>
            complain closure.name choice.1 c choice.2) := by
    intro choice
    rw [Components.ofChoice?, aliasIndex_of_core h, Components.ofChoice?, hname]
    cases closure.components.aliasIndex.find? choice.1 with
    | none => exact ⟨rfl, rfl⟩
    | some name =>
      cases hc : closure.components.find? name with
      | none =>
        have hnone : closure'.components.find? name = none := by
          rw [OrderedMap.find?_eq_none_iff, ← OrderedMap.keys_map _ Component.core, h,
            OrderedMap.keys_map, ← OrderedMap.find?_eq_none_iff, hc]
        simp [hnone, hc]
      | some c =>
        obtain ⟨c', hc', hcore⟩ := find?_of_core h.symm hc
        simpa only [Option.bind_some, hc, hc', Option.elim_some] using
          choice_of_core hcore closure.name choice
  rw [(run_eq closure' schedule).1, (run_eq closure schedule).1, (run_eq closure' schedule).2,
    (run_eq closure schedule).2]
  exact ⟨List.flatMap_congr fun choice _ => (htarget choice).1,
    List.flatMap_congr fun choice _ => (htarget choice).2⟩

/-- Only illegal worlds are complained about. -/
theorem diagnostics_run (closure : Closure) (schedule : Schedule) :
    ∀ d ∈ (run closure schedule).diagnostics, ∃ span world choice,
      d = .errorIn closure.name span (.illegalWorld world choice) := by
  intro d hd
  rw [(run_eq closure schedule).2] at hd
  obtain ⟨choice, _, hd⟩ := List.mem_flatMap.mp hd
  cases htarget : closure.components.ofChoice? choice.1 with
  | none => simp [htarget] at hd
  | some c =>
    rw [htarget] at hd
    obtain ⟨selection, _, rfl⟩ := List.mem_map.mp hd
    exact ⟨_, _, _, rfl⟩

theorem diagnostics_run_eq_nil_iff {closure : Closure} {schedule : Schedule} :
    (run closure schedule).diagnostics = [] ↔ ∀ choice ∈ schedule.choices.entries, ∀ c,
      closure.components.ofChoice? choice.1 = some c → ∀ s ∈ choice.2, c.isLegal s = true := by
  rw [(run_eq closure schedule).2, List.flatMap_eq_nil_iff]
  refine forall_congr' fun choice => imp_congr_right fun _ => ?_
  cases closure.components.ofChoice? choice.1 with
  | none => simp
  | some c => simp [complain]

theorem mem_asked_run {closure : Closure} {schedule : Schedule} {n : String} {k : Nat} :
    (n, k) ∈ (run closure schedule).asked ↔
      ∃ choice ∈ schedule.choices.entries, ∃ name c,
        closure.components.aliasIndex.find? choice.1 = some name ∧
          closure.components.find? name = some c ∧ c.name = n ∧ k ∈ c.selected choice.2 := by
  rw [(run_eq closure schedule).1, List.mem_flatMap]
  refine exists_congr fun choice => and_congr_right fun _ => ?_
  unfold Components.ofChoice?
  cases closure.components.aliasIndex.find? choice.1 with
  | none => simp
  | some name =>
    cases hc : closure.components.find? name with
    | none => simp [hc]
    | some c => simp [hc, and_comm]

end Choosing

end ShaderVariants
