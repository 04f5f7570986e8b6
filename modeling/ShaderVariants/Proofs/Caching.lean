import ShaderVariants.Proofs.AttributeRuns
import ShaderVariants.Proofs.Stages
import ShaderVariants.Proofs.VariantMeaning

/-! # Closures across the stages

A call adds closures for shaders that have none, rewrites attributes, and resolves what is not
resolved. What is there is never replaced, and a representation is never touched. All complaints of
these stages are errors, so that a stage without errors has left a closure for every shader
(`complete_of_flattenAll`) and a representation for every closure (`resolved_of_clean`). -/
namespace ShaderVariants

namespace Diagnostics

theorem hasErrors_append (a b : Diagnostics) :
    hasErrors (a ++ b) = (hasErrors a || hasErrors b) := List.any_append

theorem eq_nil_of_clean {ds : Diagnostics} (h : ∀ d ∈ ds, d.isError = true)
    (hclean : ds.hasErrors = false) : ds = [] := by
  refine List.eq_nil_iff_forall_not_mem.mpr fun d hd => ?_
  have := List.any_eq_false.mp hclean d hd
  exact this (h d hd)

end Diagnostics

/-! ## Flattening -/

theorem Closure.ofShader_ok {symbols : SymbolTable} {shader : Shader} {closure : Closure}
    (h : Closure.ofShader symbols shader = .ok closure) :
    closure.name = shader.name ∧ closure.ir = none := by
  unfold ofShader at h
  split at h
  · cases h
  · cases h
    exact List.foldlRecOn (motive := fun closure : Closure =>
      closure.name = shader.name ∧ closure.ir = none) _ _ ⟨rfl, rfl⟩ fun closure hc _ _ => hc

theorem Closure.ofShader_error {symbols : SymbolTable} {shader : Shader} {d : Diagnostic}
    (h : Closure.ofShader symbols shader = .error d) :
    d.isError = true ∧ d.problem.code = "other" := by
  unfold ofShader at h
  split at h
  · cases h
    exact ⟨rfl, rfl⟩
  · cases h

namespace SymbolTable
variable {symbols : SymbolTable} {closures : Closures}

/-- Whether flattening would pass a shader over. -/
def Done (closures : Closures) (shader : Shader) : Prop :=
  shader.isModule = true ∨ shader.name ∈ closures.keys

theorem flatten_of_done {state : Closures × Diagnostics} {shader : Shader}
    (h : Done state.1 shader) : symbols.flatten state shader = state := by
  refine if_pos ?_
  rw [Bool.or_eq_true_iff, OrderedMap.contains_iff]
  exact h

theorem flatten_of_not_done {state : Closures × Diagnostics} {shader : Shader}
    (h : ¬ Done state.1 shader) : symbols.flatten state shader =
      match Closure.ofShader symbols shader with
      | .ok closure => (state.1.insert shader.name closure, state.2)
      | .error d => (state.1, state.2 ++ [d]) := by
  refine if_neg ?_
  rw [Bool.or_eq_true_iff, OrderedMap.contains_iff]
  exact h

/-- What flattening can do to closures. -/
structure Flattened (closures : Closures) (state : Closures × Diagnostics) : Prop where
  kept : ∀ {name closure}, closures.find? name = some closure →
    state.1.find? name = some closure
  fresh : ∀ {name closure}, state.1.find? name = some closure →
    closures.find? name = some closure ∨ closure.name = name ∧ closure.ir = none
  reports : ∀ d ∈ state.2, d.isError = true ∧ d.problem.code = "other"

theorem Flattened.flatten {state : Closures × Diagnostics} (h : Flattened closures state)
    (shader : Shader) : Flattened closures (symbols.flatten state shader) := by
  by_cases hdone : Done state.1 shader
  · rw [flatten_of_done hdone]
    exact h
  · rw [flatten_of_not_done hdone]
    have hnew : state.1.find? shader.name = none :=
      OrderedMap.find?_eq_none_iff.mpr fun hmem => hdone (Or.inr hmem)
    cases hclosure : Closure.ofShader symbols shader with
    | error d =>
      refine ⟨h.kept, h.fresh, fun d' hd' => ?_⟩
      rcases List.mem_append.mp hd' with hold | hlast
      · exact h.reports d' hold
      · obtain rfl := List.mem_singleton.mp hlast
        exact Closure.ofShader_error hclosure
    | ok closure =>
      obtain ⟨hname, hir⟩ := Closure.ofShader_ok hclosure
      refine ⟨fun {name old} hfind => ?_, fun {name new} hfind => ?_, h.reports⟩
      · rw [OrderedMap.find?_insert, if_neg]
        · exact h.kept hfind
        · rintro rfl
          rw [h.kept hfind] at hnew
          cases hnew
      · rw [OrderedMap.find?_insert] at hfind
        split at hfind
        · rename_i hsame
          cases hfind
          exact Or.inr ⟨hname.trans hsame, hir⟩
        · exact h.fresh hfind

/-- New closures have no representation, and the others keep theirs. -/
theorem Flattened.ir {state : Closures × Diagnostics} (h : Flattened closures state)
    (name : String) :
    (state.1.find? name).bind Closure.ir = (closures.find? name).bind Closure.ir := by
  cases hold : closures.find? name with
  | some closure => rw [h.kept hold]
  | none =>
    cases hnew : state.1.find? name with
    | none => rfl
    | some closure =>
      rcases h.fresh hnew with hsame | ⟨_, hir⟩
      · rw [hold] at hsame
        cases hsame
      · exact hir

theorem flattened_flattenAll (symbols : SymbolTable) (closures : Closures) :
    Flattened closures (symbols.flattenAll closures) :=
  List.foldlRecOn _ _ ⟨id, Or.inl, fun _ hd => absurd hd List.not_mem_nil⟩
    fun _ h shader _ => h.flatten shader

theorem keys_flatten {state : Closures × Diagnostics} {k : String} (h : k ∈ state.1.keys)
    (shader : Shader) : k ∈ (symbols.flatten state shader).1.keys := by
  by_cases hdone : Done state.1 shader
  · rw [flatten_of_done hdone]
    exact h
  · rw [flatten_of_not_done hdone]
    cases Closure.ofShader symbols shader with
    | error d => exact h
    | ok closure =>
      show k ∈ (state.1.insert shader.name closure).keys
      rw [OrderedMap.keys_insert]
      split
      · exact h
      · exact List.mem_append_left _ h

/-- Nothing to complain about: every shader has its closure. -/
theorem done_of_foldl_flatten (shaders : List Shader) (state : Closures × Diagnostics)
    (hclean : (shaders.foldl symbols.flatten state).2 = []) :
    state.2 = [] ∧ ∀ shader ∈ shaders, Done (shaders.foldl symbols.flatten state).1 shader := by
  induction shaders generalizing state with
  | nil => exact ⟨hclean, fun _ h => absurd h List.not_mem_nil⟩
  | cons shader rest ih =>
    obtain ⟨hstep, hrest⟩ := ih (symbols.flatten state shader) hclean
    have hkeys : ∀ k ∈ (symbols.flatten state shader).1.keys,
        k ∈ (rest.foldl symbols.flatten (symbols.flatten state shader)).1.keys := by
      intro k hk
      exact List.foldlRecOn (motive := fun state => k ∈ state.1.keys) rest symbols.flatten hk
        fun _ h shader _ => keys_flatten h shader
    rw [List.foldl_cons, List.forall_mem_cons]
    by_cases hdone : Done state.1 shader
    · rw [flatten_of_done hdone] at hstep
      exact ⟨hstep, hdone.imp_right fun hmem => hkeys _ (keys_flatten hmem shader), hrest⟩
    · rw [flatten_of_not_done hdone] at hstep
      cases hclosure : Closure.ofShader symbols shader with
      | error d =>
        rw [hclosure] at hstep
        exact absurd hstep (List.append_ne_nil_of_right_ne_nil _ (List.cons_ne_nil _ _))
      | ok closure =>
        rw [hclosure] at hstep
        refine ⟨hstep, Or.inr (hkeys _ ?_), hrest⟩
        rw [flatten_of_not_done hdone, hclosure]
        exact OrderedMap.contains_iff.mp
          (by rw [OrderedMap.contains, OrderedMap.find?_insert, if_pos rfl]; rfl)

theorem complete_of_flattenAll (h : (symbols.flattenAll closures).2 = []) :
    ∀ shader ∈ symbols.dependenceOrder, Done (symbols.flattenAll closures).1 shader :=
  (done_of_foldl_flatten symbols.dependenceOrder (closures, []) h).2

theorem flattenAll_of_complete (h : ∀ shader ∈ symbols.dependenceOrder, Done closures shader) :
    symbols.flattenAll closures = (closures, []) := by
  unfold flattenAll
  generalize symbols.dependenceOrder = shaders at h
  induction shaders with
  | nil => rfl
  | cons shader rest ih =>
    rw [List.foldl_cons, flatten_of_done (h shader List.mem_cons_self)]
    exact ih fun s hs => h s (List.mem_cons_of_mem _ hs)

end SymbolTable

/-! ## Attribute references -/

/-- A closure without what schedules and references can change. -/
def Closure.core (closure : Closure) : Closure :=
  { closure with components := closure.components.reviseAll Component.core Component.name_core }

theorem Component.core_comp_shape : Component.core ∘ Component.shape = Component.core := by
  funext c
  simp only [Function.comp_apply, core, shape, List.map_map]
  rfl

/-- References replace the values of attributes, and these are no part of the core. -/
theorem Closure.core_followed (closure : Closure) : closure.followed.core = closure.core := by
  have hcomponents :
      (Indirection.resolve closure.components {}).1.reviseAll Component.core Component.name_core =
        closure.components.reviseAll Component.core Component.name_core := by
    refine Components.ext ?_
    rw [Components.toOrderedMap_reviseAll, Components.toOrderedMap_reviseAll,
      ← Component.core_comp_shape, ← OrderedMap.map_map, Indirection.shape_resolve,
      OrderedMap.map_map]
  simp only [core, followed, hcomponents]

/-- No closure is lost or moved. -/
theorem Indirection.core_resolveAll (symbols : SymbolTable) (closures : Closures) :
    (resolveAll symbols closures).1.map Closure.core = closures.map Closure.core := by
  rw [resolveAll_eq, fst_foldl_turn]
  exact OrderedMap.map_foldl_modify Closure.core_followed _ closures

/-! ## Resolving -/

/-- The problems that resolving can find. -/
def Problem.isOfVariant : Problem → Bool
  | illegalWorld _ _ | circularity _ | unavailable _ _ _ => true
  | _ => false

theorem ShaderIR.resolve_error {ir : ShaderIR} {isComponent : String → Bool}
    {reports : Diagnostics} (h : ir.resolve isComponent = .error reports) :
    reports ≠ [] ∧ ∀ d ∈ reports, d.isError = true ∧ d.problem.isOfVariant = true := by
  unfold resolve at h
  split at h
  · cases h
    refine ⟨List.cons_ne_nil _ _, fun d hd => ?_⟩
    obtain rfl := List.mem_singleton.mp hd
    exact ⟨rfl, rfl⟩
  · split at h
    · cases h
    · rename_i hne
      cases h
      refine ⟨mt List.map_eq_nil_iff.mp hne, fun d hd => ?_⟩
      obtain ⟨r, _, rfl⟩ := List.mem_map.mp hd
      exact ⟨rfl, rfl⟩

namespace Closure
variable {closure : Closure} {schedule : Schedule}

theorem shader_variant {ir : ShaderIR} (h : (closure.variant schedule).ir = some ir) :
    ir.shader = closure.name :=
  (pruned_of_variant h).1.shader.trans (shader_placed closure schedule)

theorem reports_variant (closure : Closure) (schedule : Schedule) :
    ∀ d ∈ (closure.variant schedule).diagnostics,
      d.isError = true ∧ d.problem.isOfVariant = true := by
  have hchoices : ∀ d ∈ (Choosing.run closure schedule).diagnostics,
      d.isError = true ∧ d.problem.isOfVariant = true := by
    intro d hd
    obtain ⟨_, _, _, rfl⟩ := Choosing.diagnostics_run closure schedule d hd
    exact ⟨rfl, rfl⟩
  cases hr : (closure.placed schedule).resolve closure.components.contains with
  | ok ir => rw [(variant_of_ok hr).2]; exact hchoices
  | error reports =>
    rw [(variant_of_error hr).2]
    exact List.forall_mem_append.mpr ⟨hchoices, (ShaderIR.resolve_error hr).2⟩

theorem variant_of_clean (hclean : (closure.variant schedule).diagnostics = []) :
    ∃ ir, (closure.variant schedule).ir = some ir := by
  cases hr : (closure.placed schedule).resolve closure.components.contains with
  | ok ir => exact ⟨ir, (variant_of_ok hr).1⟩
  | error reports =>
    rw [(variant_of_error hr).2] at hclean
    exact absurd (List.append_eq_nil_iff.mp hclean).2 (ShaderIR.resolve_error hr).1

theorem resolve_of_ir {ir : ShaderIR} (h : closure.ir = some ir) :
    closure.resolve schedule = (closure, []) := by
  rw [resolve, h]

theorem resolve_of_none (h : closure.ir = none) : closure.resolve schedule =
    ({ (closure.variant schedule).closure with ir := (closure.variant schedule).ir },
      (closure.variant schedule).diagnostics) := by
  rw [resolve, h]

theorem name_resolve (closure : Closure) (schedule : Schedule) :
    (closure.resolve schedule).1.name = closure.name := by
  cases h : closure.ir with
  | some ir => rw [resolve_of_ir h]
  | none => rw [resolve_of_none h, closure_variant]

theorem reports_resolve (closure : Closure) (schedule : Schedule) :
    ∀ d ∈ (closure.resolve schedule).2, d.isError = true ∧ d.problem.isOfVariant = true := by
  cases h : closure.ir with
  | some ir => rw [resolve_of_ir h]; exact fun d hd => absurd hd List.not_mem_nil
  | none => rw [resolve_of_none h]; exact closure.reports_variant schedule

theorem resolved_of_clean (hclean : (closure.resolve schedule).2 = []) :
    ∃ ir, (closure.resolve schedule).1.ir = some ir := by
  cases h : closure.ir with
  | some ir => rw [resolve_of_ir h]; exact ⟨ir, h⟩
  | none => rw [resolve_of_none h] at hclean ⊢; exact variant_of_clean hclean

end Closure

theorem Closures.ir_of_core {closures closures' : Closures}
    (h : closures'.map Closure.core = closures.map Closure.core) :
    closures'.map Closure.ir = closures.map Closure.ir := by
  have hmap := congrArg (OrderedMap.map · Closure.ir) h
  simp only [OrderedMap.map_map] at hmap
  exact hmap

/-- Every closure stands under its name, as does its representation. -/
def Closures.Named (closures : Closures) : Prop :=
  ∀ name closure, closures.find? name = some closure →
    closure.name = name ∧ ∀ ir, closure.ir = some ir → ir.shader = name

namespace Closures.Named
variable {closures : Closures}

theorem flattenAll (h : closures.Named) (symbols : SymbolTable) :
    (symbols.flattenAll closures).1.Named := by
  intro name closure hfind
  rcases (SymbolTable.flattened_flattenAll symbols closures).fresh hfind with hold | ⟨hname, hir⟩
  · exact h name closure hold
  · exact ⟨hname, fun ir hsome => by rw [hir] at hsome; cases hsome⟩

theorem resolveAll (h : closures.Named) (symbols : SymbolTable) :
    (Indirection.resolveAll symbols closures).1.Named := by
  intro name closure hfind
  have hcore := congrArg (OrderedMap.find? · name) (Indirection.core_resolveAll symbols closures)
  simp only [OrderedMap.find?_map, hfind, Option.map_some] at hcore
  obtain ⟨old, hold, hsame⟩ := Option.map_eq_some_iff.mp hcore.symm
  have hname : old.core.name = closure.core.name := by rw [hsame]
  have hir : old.core.ir = closure.core.ir := by rw [hsame]
  obtain ⟨hkey, hshader⟩ := h name old hold
  exact ⟨hname.symm.trans hkey, fun ir hsome => hshader ir (hir.trans hsome)⟩

theorem resolve (h : closures.Named) (schedule : Schedule) :
    Named (closures.map fun closure => (closure.resolve schedule).1) := by
  intro name closure hfind
  rw [OrderedMap.find?_map] at hfind
  obtain ⟨old, hold, rfl⟩ := Option.map_eq_some_iff.mp hfind
  obtain ⟨hname, hshader⟩ := h name old hold
  refine ⟨(old.name_resolve schedule).trans hname, fun ir hsome => ?_⟩
  cases hir : old.ir with
  | some _ => rw [Closure.resolve_of_ir hir] at hsome; exact hshader ir hsome
  | none =>
    rw [Closure.resolve_of_none hir] at hsome
    exact (Closure.shader_variant hsome).trans hname

end Closures.Named

/-! ## The stages of a call -/

namespace Compiler
variable (c : Compiler) (builtins : Builtins) (units : List SourceUnit) (options : Options)
  (context : Context)

theorem reports_readSchedule (options : Options) : ∀ d ∈ (readSchedule options).2,
    d.isError = true ∧ d.problem.code = "schedule-syntax" := by
  intro d hd
  unfold readSchedule at hd
  split at hd
  · obtain ⟨e, _, rfl⟩ := List.mem_map.mp hd
    exact ⟨rfl, rfl⟩
  · cases hd

theorem closures_resolved : (c.resolved builtins units options context).context.closures =
    (c.prepared builtins units context).context.closures.map fun closure =>
      (closure.resolve (readSchedule options).1).1 :=
  OrderedMap.map_map _ _ _

/-- Only resolving gives a closure a representation. -/
theorem ir_prepared (name : String) :
    ((c.prepared builtins units context).context.closures.find? name).bind Closure.ir =
      (context.closures.find? name).bind Closure.ir := by
  have hirs := congrArg (fun m => (OrderedMap.find? m name).bind id) (Closures.ir_of_core
    (Indirection.core_resolveAll (c.analysis builtins units context).value
      ((c.analysis builtins units context).value.flattenAll context.closures).1))
  simp only [OrderedMap.find?_map, Option.bind_map, Function.id_comp] at hirs
  exact hirs.trans ((SymbolTable.flattened_flattenAll _ _).ir name)

theorem diagnostics_prepared : (c.prepared builtins units context).output.diagnostics =
    (c.analysis builtins units context).diagnostics ++
      ((c.analysis builtins units context).value.flattenAll context.closures).2 := rfl

theorem diagnostics_resolved : (c.resolved builtins units options context).output.diagnostics =
    (c.prepared builtins units context).output.diagnostics ++ (readSchedule options).2 ++
      (c.prepared builtins units context).context.closures.values.flatMap fun closure =>
        (closure.resolve (readSchedule options).1).2 := by
  rw [resolved, resolveVariants]
  dsimp only
  rw [OrderedMap.values_map, List.flatMap_map]
  rfl

end Compiler

end ShaderVariants
