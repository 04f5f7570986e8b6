import ShaderVariants.Proofs.Attributed

/-! # What resolving does to a closure

Resolving a variant writes pins and attributes into the components of its closure and touches
nothing else, whether or not there is a variant in the end. What it writes is said here without its
passes. A choice name stands for the last component that has it as an alias
(`Components.standsFor?`). Of the choices that are aimed at a component the last one alone decides
about its pins, and the attributes aimed at it are merged in the order of the schedule
(`Component.Decided`). -/
namespace ShaderVariants

/-! ## Who a choice stands for -/

namespace Components

/-- The name of the last component with the alias. -/
def standsFor? (components : Components) (choice : String) : Option String :=
  (components.values.filter (·.aliases.contains choice)).getLast?.map Component.name

theorem getLast?_aliases (c : Component) (choice : String) :
    ((c.aliases.map fun a => (a, c.name)).filter (·.1 = choice)).getLast?.map Prod.snd =
      if c.aliases.contains choice then some c.name else none := by
  have hown : (c.aliases.map fun a => (a, c.name)).filter (·.1 = choice) =
      List.replicate (c.aliases.count choice) (choice, c.name) := by
    rw [List.filter_map]
    show (c.aliases.filter (· = choice)).map _ = _
    rw [List.filter_eq, List.map_replicate]
  rw [hown, List.getLast?_replicate]
  simp [List.count_eq_zero]

theorem find?_aliasIndex (components : Components) :
    components.aliasIndex.find? = components.standsFor? := by
  funext choice
  have hlast : ∀ cs : List Component,
      ((cs.flatMap fun c => c.aliases.map fun a => (a, c.name)).filter
        (·.1 = choice)).getLast?.map Prod.snd =
        (cs.filter (·.aliases.contains choice)).getLast?.map Component.name := by
    intro cs
    induction cs with
    | nil => rfl
    | cons c cs ih =>
      rw [List.flatMap_cons, List.filter_append, List.getLast?_append, Option.map_or, ih,
        getLast?_aliases, List.filter_cons]
      split
      · rw [List.getLast?_cons]
        cases (cs.filter (·.aliases.contains choice)).getLast? <;> rfl
      · exact Option.or_none
  rw [aliasIndex, OrderedMap.ofList, OrderedMap.find?_insertAll_eq, hlast]
  exact Option.or_none

/-- The component that a choice name stands for, said without the index. -/
theorem ofChoice?_eq (components : Components) (choice : String) :
    components.ofChoice? choice = (components.standsFor? choice).bind components.find? := by
  rw [ofChoice?, find?_aliasIndex]

end Components

/-! ## What is decided about a component -/

/-- Maps of attributes were merged into those of an implementation: of the maps that have a key the
last decides about it, and new keys stand behind the old ones in the order of first mention. -/
structure Implementation.Merged (i i' : Implementation) (overrides : List Attributes) : Prop where
  frame : i' = { i with attributes := i'.attributes }
  keys : i'.attributes.keys = i.attributes.keys ++
    ((overrides.flatMap OrderedMap.keys).filter (· ∉ i.attributes.keys)).eraseDups
  find? : ∀ key, i'.attributes.find? key =
    (overrides.filterMap (·.find? key)).getLast?.or (i.attributes.find? key)

theorem Implementation.merged_insertAll (i : Implementation) (overrides : List Attributes) :
    i.Merged { i with attributes := i.attributes.insertAll (overrides.flatMap (·.entries)) }
      overrides where
  frame := rfl
  keys := by
    have hkeys : (overrides.flatMap (·.entries)).map Prod.fst =
        overrides.flatMap OrderedMap.keys := List.map_flatMap
    rw [OrderedMap.keys_insertAll, hkeys]
  find? := OrderedMap.find?_insertAll_flatMap i.attributes overrides

namespace Component

/-- The worlds that the implementations fix, in declaration order. -/
def fixedWorlds (c : Component) : List String :=
  c.implementations.flatMap fun i => i.worlds.toList.filter i.fixes

/-- What choices and attributes make of a component. -/
structure Decided (c c' : Component) (choices : List (List Selection))
    (overrides : List Attributes) : Prop where
  frame : c' = { c with pinned := c'.pinned, implementations := c'.implementations }
  /-- Where there is no choice the legal fixed worlds are pinned in addition. -/
  unchosen : choices = [] → c'.pinned.toList = c.pinned.toList ++
    (c.fixedWorlds.filter fun w => w ∈ c.constrained ∧ w ∉ c.pinned).eraseDups
  /-- The last choice replaces all pins, also those that were there before. -/
  chosen : ∀ selections, choices.getLast? = some selections → c'.pinned.toList =
    ((selections.map Selection.world).filter (· ∈ c.constrained)).eraseDups
  implementations : List.Forall₂ (·.Merged · overrides) c.implementations c'.implementations

theorem toList_pinned_pinFixed (c : Component) : c.pinFixed.pinned.toList = c.pinned.toList ++
    (c.fixedWorlds.filter fun w => w ∈ c.constrained ∧ w ∉ c.pinned).eraseDups := by
  have hlegal : (c.fixedWorlds.filter c.constrained.contains).filter (· ∉ c.pinned) =
      c.fixedWorlds.filter fun w => w ∈ c.constrained ∧ w ∉ c.pinned := by
    rw [List.filter_filter]
    refine List.filter_congr fun w _ => ?_
    simp [OrderedSet.contains, Bool.and_comm]
  rw [← hlegal]
  exact OrderedSet.toList_insertAll _ _

theorem toList_pinned_pinSelected (c : Component) (selections : List Selection) :
    (c.pinSelected selections).pinned.toList =
      ((selections.map Selection.world).filter (· ∈ c.constrained)).eraseDups := by
  have hlegal : (selections.filter c.isLegal).map Selection.world =
      (selections.map Selection.world).filter (· ∈ c.constrained) := by
    rw [List.filter_map]
    rfl
  rw [← hlegal]
  exact OrderedSet.toList_ofList _

/-- Each choice clears what the ones before it have pinned. -/
theorem pinned_foldl_pinSelected (c : Component) {choices : List (List Selection)}
    {selections : List Selection} (h : choices.getLast? = some selections) :
    (choices.foldl pinSelected c).pinned = (c.pinSelected selections).pinned := by
  obtain ⟨before, rfl⟩ := List.getLast?_eq_some_iff.mp h
  rw [List.foldl_concat, foldl_pinSelected]
  rfl

theorem decided_attach (c : Component) (choices : List (List Selection))
    (overrides : List Attributes) :
    c.Decided ((choices.foldl pinSelected c.pinFixed).attach (overrides.flatMap (·.entries)))
      choices overrides where
  frame := by
    rw [foldl_pinSelected]
    rfl
  unchosen := by
    rintro rfl
    exact c.toList_pinned_pinFixed
  chosen := by
    intro selections hlast
    refine Eq.trans ?_ (c.toList_pinned_pinSelected selections)
    exact congrArg OrderedSet.toList (pinned_foldl_pinSelected c.pinFixed hlast)
  implementations := by
    rw [foldl_pinSelected]
    refine List.forall₂_map_right_iff.mpr (List.forall₂_same.mpr fun i _ => ?_)
    exact i.merged_insertAll overrides

/-- Pins within the legal worlds stay within them. -/
theorem Decided.legal {c c' : Component} {choices : List (List Selection)}
    {overrides : List Attributes} (h : c.Decided c' choices overrides)
    (hc : ∀ w ∈ c.pinned, w ∈ c.constrained) : ∀ w ∈ c'.pinned, w ∈ c'.constrained := by
  have hconstrained : c'.constrained = c.constrained := by rw [h.frame]
  intro w hw
  rw [hconstrained]
  rw [OrderedSet.mem_def] at hw
  cases hlast : choices.getLast? with
  | none =>
    rw [h.unchosen (List.getLast?_eq_none_iff.mp hlast), List.mem_append] at hw
    rcases hw with hw | hw
    · exact hc w hw
    · simp only [List.mem_eraseDups, List.mem_filter, decide_eq_true_eq] at hw
      exact hw.2.1
  | some selections =>
    rw [h.chosen selections hlast] at hw
    simp only [List.mem_eraseDups, List.mem_filter, decide_eq_true_eq] at hw
    exact hw.2

end Component

/-! ## What resolving writes and reports -/

/-- Nothing that goes wrong after the choices is a complaint about a choice. -/
theorem ShaderIR.code_of_resolve_error {ir : ShaderIR} {isComponent : String → Bool}
    {reports : Diagnostics} (h : ir.resolve isComponent = .error reports) :
    ∀ d ∈ reports, d.problem.code ≠ "invalid-choice-for-key" := by
  intro d hd
  unfold resolve at h
  split at h
  · cases h
    obtain rfl := List.mem_singleton.mp hd
    simp [Diagnostic.errorIn, Problem.code]
  · split at h
    · cases h
    · cases h
      obtain ⟨r, _, rfl⟩ := List.mem_map.mp hd
      simp [Diagnostic.errorIn, Problem.code]

namespace Closure

theorem decided_run (closure : Closure) (schedule : Schedule) {name : String} {c : Component}
    (hc : closure.components.find? name = some c) :
    ∃ c', (Choosing.run closure schedule).components.find? name = some c' ∧
      c.Decided c'
        (Choosing.aimed closure.components.standsFor? name schedule.choices.entries)
        (Choosing.aimed closure.components.standsFor? name schedule.attributes.entries) := by
  rw [Choosing.find?_run, hc, added, Choosing.added_eq, Components.find?_aliasIndex]
  exact ⟨_, rfl, c.decided_attach _ _⟩

theorem ofCode_invalidChoice_variant (closure : Closure) (schedule : Schedule) :
    (closure.variant schedule).diagnostics.ofCode "invalid-choice-for-key" =
      (Choosing.run closure schedule).diagnostics := by
  have hchoices : (Choosing.run closure schedule).diagnostics.ofCode "invalid-choice-for-key" =
      (Choosing.run closure schedule).diagnostics := by
    refine List.filter_eq_self.mpr fun d hd => ?_
    obtain ⟨_, _, _, rfl⟩ := Choosing.diagnostics_run closure schedule d hd
    rfl
  cases hr : (closure.placed schedule).resolve closure.components.contains with
  | ok ir => rw [(variant_of_ok hr).2, hchoices]
  | error reports =>
    have hreports : reports.ofCode "invalid-choice-for-key" = [] :=
      Diagnostics.ofCode_eq_nil (ShaderIR.code_of_resolve_error hr)
    rw [(variant_of_error hr).2, Diagnostics.ofCode_append, hchoices, hreports, List.append_nil]

/-- What resolving changes and what it says about choices, on every exit: pins and attributes of
components, each by the entries of the schedule that are aimed at it, and one report for each
selection outside the legal worlds. -/
theorem variant_effect (closure : Closure) (schedule : Schedule) :
    let v := closure.variant schedule
    v.closure = { closure with components := v.closure.components } ∧
    v.closure.components.keys = closure.components.keys ∧
    (∀ name c, closure.components.find? name = some c →
      ∃ c', v.closure.components.find? name = some c' ∧
        c.Decided c'
          (Choosing.aimed closure.components.standsFor? name schedule.choices.entries)
          (Choosing.aimed closure.components.standsFor? name schedule.attributes.entries) ∧
        ((∀ w ∈ c.pinned, w ∈ c.constrained) → ∀ w ∈ c'.pinned, w ∈ c'.constrained)) ∧
    v.diagnostics.ofCode "invalid-choice-for-key" = schedule.choices.entries.flatMap fun choice =>
      match (closure.components.standsFor? choice.1).bind closure.components.find? with
      | none => []
      | some c => (choice.2.filter fun s => s.world ∉ c.constrained).map fun s =>
        .errorIn closure.name s.span (.illegalWorld s.world choice.1) := by
  intro v
  have hv : v.closure = { closure with components := (Choosing.run closure schedule).components } :=
    closure_variant closure schedule
  refine ⟨by rw [hv], by rw [hv, Choosing.keys_run], ?_, ?_⟩
  · intro name c hc
    obtain ⟨c', hc', hdecided⟩ := decided_run closure schedule hc
    rw [hv]
    exact ⟨c', hc', hdecided, hdecided.legal⟩
  · rw [ofCode_invalidChoice_variant, (Choosing.run_eq closure schedule).2]
    refine List.flatMap_congr fun choice _ => ?_
    rw [Components.ofChoice?_eq]
    cases (closure.components.standsFor? choice.1).bind closure.components.find? with
    | none => rfl
    | some c =>
      refine congrArg (List.map _) (List.filter_congr fun s _ => ?_)
      simp [Component.isLegal, OrderedSet.contains]

end Closure

end ShaderVariants
