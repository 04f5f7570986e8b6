import ShaderVariants.Proofs.Accumulation

/-! # Calls that are repeated

A call without errors leaves nothing to build and nothing to resolve (`clean_resolved`). Made again
on what it left, it rewrites attributes once more, which neither representations nor choices show,
and lowers into the program what is already there (`LoweredProgram.lowerAll_lowerAll`). So it gives
the same again. -/
namespace ShaderVariants

/-- Analysis does not depend on the symbols of earlier calls. -/
def Frontend.Stateless (f : Frontend) : Prop :=
  ∀ declarations builtins symbols symbols',
    f.analyze declarations builtins symbols = f.analyze declarations builtins symbols'

/-! ## What attributes do not show in -/

theorem Closure.choices_core (closure : Closure) : closure.core.choices = closure.choices := by
  have hoptions : ∀ c : Component, c.core.options = c.options := by
    intro c
    rw [Component.options, Component.core, List.flatMap_map, Component.options]
  rw [choices, core, Components.toOrderedMap_reviseAll, OrderedMap.values_map, List.filter_map,
    List.filterMap_map, choices]
  refine List.filterMap_congr fun c _ => ?_
  show c.aliases.head?.map _ = _
  simp only [hoptions]
  rfl

theorem Catalog.ofClosures_core (closures : List Closure) (symbol : Option String) :
    ofClosures (closures.map Closure.core) symbol = ofClosures closures symbol := by
  rw [ofClosures, ofClosures, List.filter_map, List.map_map]
  simp only [Function.comp_def, Closure.choices_core]
  rfl

namespace Closures
variable {closures closures' : Closures}

theorem irs_of_ir (h : closures'.map Closure.ir = closures.map Closure.ir) :
    closures'.values.filterMap Closure.ir = closures.values.filterMap Closure.ir := by
  have hvalues := congrArg (fun m => (OrderedMap.values m).filterMap id) h
  simp only [OrderedMap.values_map, List.filterMap_map] at hvalues
  exact hvalues

theorem catalog_of_core (h : closures'.map Closure.core = closures.map Closure.core)
    (symbol : Option String) :
    Catalog.ofClosures closures'.values symbol = Catalog.ofClosures closures.values symbol := by
  have hvalues := congrArg OrderedMap.values h
  rw [OrderedMap.values_map, OrderedMap.values_map] at hvalues
  rw [← Catalog.ofClosures_core, hvalues, Catalog.ofClosures_core]

/-- Every closure has its representation. -/
def Resolved (closures : Closures) : Prop :=
  ∀ closure ∈ closures.values, ∃ ir, closure.ir = some ir

theorem Resolved.of_core (h : closures.Resolved)
    (hcore : closures'.map Closure.core = closures.map Closure.core) : closures'.Resolved := by
  intro closure hclosure
  have hmem : closure.core ∈ (closures'.map Closure.core).values := by
    rw [OrderedMap.values_map]
    exact List.mem_map_of_mem hclosure
  rw [hcore, OrderedMap.values_map] at hmem
  obtain ⟨old, hold, hsame⟩ := List.mem_map.mp hmem
  obtain ⟨ir, hir⟩ := h old hold
  have hsame : old.core.ir = closure.core.ir := by rw [hsame]
  exact ⟨ir, hsame.symm.trans hir⟩

theorem Resolved.resolve (h : closures.Resolved) (schedule : Schedule) :
    (closures.map fun closure => (closure.resolve schedule).1) = closures := by
  refine OrderedMap.ext (map_eq_self fun e he => ?_)
  obtain ⟨ir, hir⟩ := h e.2 (List.mem_map_of_mem he)
  dsimp only
  rw [Closure.resolve_of_ir hir]

theorem Resolved.reports (h : closures.Resolved) (schedule : Schedule) :
    closures.values.flatMap (fun closure => (closure.resolve schedule).2) = [] := by
  refine List.flatMap_eq_nil_iff.mpr fun closure hclosure => ?_
  obtain ⟨ir, hir⟩ := h closure hclosure
  rw [Closure.resolve_of_ir hir]

end Closures

namespace Compiler
variable {c : Compiler} {builtins : Builtins} {units : List SourceUnit} {options : Options}
  {context after : Context} {backend : Backend}

/-- A call without errors has a closure for every shader and a representation for every closure. -/
theorem clean_resolved
    (h : (c.resolved builtins units options context).output.diagnostics.hasErrors = false) :
    (c.resolved builtins units options context).output.diagnostics =
        (c.analysis builtins units context).diagnostics ∧
      (readSchedule options).2 = [] ∧
      (∀ shader ∈ (c.analysis builtins units context).value.dependenceOrder,
        SymbolTable.Done (c.resolved builtins units options context).context.closures shader) ∧
      (c.resolved builtins units options context).context.closures.Resolved := by
  rw [diagnostics_resolved, diagnostics_prepared, Diagnostics.hasErrors_append,
    Diagnostics.hasErrors_append, Diagnostics.hasErrors_append, Bool.or_eq_false_iff,
    Bool.or_eq_false_iff, Bool.or_eq_false_iff] at h
  obtain ⟨⟨⟨_, hflatten⟩, hschedule⟩, hresolve⟩ := h
  have hflatten := Diagnostics.eq_nil_of_clean (fun d hd =>
    ((SymbolTable.flattened_flattenAll _ _).reports d hd).1) hflatten
  have hschedule := Diagnostics.eq_nil_of_clean (fun d hd =>
    (reports_readSchedule options d hd).1) hschedule
  have hresolve := Diagnostics.eq_nil_of_clean (fun d hd => by
    obtain ⟨closure, _, hd⟩ := List.mem_flatMap.mp hd
    exact (closure.reports_resolve _ d hd).1) hresolve
  refine ⟨?_, hschedule, fun shader hshader => ?_, fun closure hclosure => ?_⟩
  · rw [diagnostics_resolved, diagnostics_prepared, hflatten, hschedule, hresolve, List.append_nil,
      List.append_nil, List.append_nil]
  · refine (SymbolTable.complete_of_flattenAll hflatten shader hshader).imp_right fun hmem => ?_
    rw [closures_resolved, OrderedMap.keys_map]
    have hkeys := congrArg OrderedMap.keys (Indirection.core_resolveAll
      (c.analysis builtins units context).value
      ((c.analysis builtins units context).value.flattenAll context.closures).1)
    rw [OrderedMap.keys_map, OrderedMap.keys_map] at hkeys
    rw [← hkeys] at hmem
    exact hmem
  · rw [closures_resolved, OrderedMap.values_map] at hclosure
    obtain ⟨old, hold, rfl⟩ := List.mem_map.mp hclosure
    exact Closure.resolved_of_clean (List.flatMap_eq_nil_iff.mp hresolve old hold)

/-- What a call finds that is made again after one without errors. -/
theorem Prepares.again (hp : c.Prepares builtins units context) (hf : c.frontend.Stateless)
    (hclean : (c.resolved builtins units options context).output.diagnostics.hasErrors = false)
    (hafter : after.closures = (c.resolved builtins units options context).context.closures) :
    c.Prepares builtins units after ∧
      (c.resolved builtins units options after).output =
        (c.resolved builtins units options context).output ∧
      (c.resolved builtins units options after).context.closures.map Closure.core =
        (c.resolved builtins units options context).context.closures.map Closure.core := by
  obtain ⟨hdiagnostics, hschedule, hdone, hresolved⟩ := clean_resolved hclean
  have hanalysis : c.analysis builtins units after = c.analysis builtins units context :=
    hf _ _ _ _
  have hflatten : (c.analysis builtins units after).value.flattenAll after.closures =
      (after.closures, []) := by
    rw [hanalysis, hafter]
    exact SymbolTable.flattenAll_of_complete hdone
  have hclosures : (c.prepared builtins units after).context.closures = (Indirection.resolveAll
      (c.analysis builtins units context).value
      (c.resolved builtins units options context).context.closures).1 := by
    show (Indirection.resolveAll (c.analysis builtins units after).value
      ((c.analysis builtins units after).value.flattenAll after.closures).1).1 = _
    rw [hflatten, hanalysis, hafter]
  have hcore := Indirection.core_resolveAll (c.analysis builtins units context).value
    (c.resolved builtins units options context).context.closures
  rw [← hclosures] at hcore
  have hprepared : (c.prepared builtins units after).output.diagnostics =
      (c.analysis builtins units context).diagnostics := by
    rw [diagnostics_prepared, hflatten, hanalysis, List.append_nil]
  refine ⟨⟨?_, ?_⟩, ?_, ?_⟩
  · rw [hanalysis, hp.analysis]
  · rw [hprepared]
    exact hp.analyzed
  · have hsame : (c.resolved builtins units options after).output.diagnostics =
        (c.resolved builtins units options context).output.diagnostics := by
      rw [diagnostics_resolved, hprepared, hschedule, (hresolved.of_core hcore).reports,
        hdiagnostics, List.append_nil, List.append_nil]
    show Output.mk ∅ {} {} (c.resolved builtins units options after).output.diagnostics =
      Output.mk ∅ {} {} (c.resolved builtins units options context).output.diagnostics
    rw [hsame]
  · rw [closures_resolved, (hresolved.of_core hcore).resolve]
    exact hcore

/-- From equal representations and programs the rest of a call is the same. -/
theorem emitted_again (hf : c.frontend.Stateless)
    (houtput : (c.resolved builtins units options after).output =
      (c.resolved builtins units options context).output)
    (hprogram : (c.lowered builtins units options after).output.program =
      (c.lowered builtins units options context).output.program) (backend : Backend) :
    c.emission builtins units options after backend =
        c.emission builtins units options context backend ∧
      (c.emitted builtins units options after backend).output =
        (c.emitted builtins units options context backend).output := by
  have hemission : c.emission builtins units options after backend =
      c.emission builtins units options context backend := by
    show backend.emission (c.analysis builtins units after).value ∅ _ =
      backend.emission (c.analysis builtins units context).value ∅ _
    rw [hprogram, show c.analysis builtins units after = c.analysis builtins units context from
      hf _ _ _ _]
  refine ⟨hemission, ?_⟩
  show ({ (c.resolved builtins units options after).output with
      sources := (c.emission builtins units options after backend).value
      program := (c.lowered builtins units options after).output.program
      diagnostics := (c.resolved builtins units options after).output.diagnostics ++
        (c.emission builtins units options after backend).diagnostics } : Output) = _
  rw [houtput, hprogram, hemission]
  rfl

theorem hasErrors_abort (call : Call) (problem : Problem) :
    (call.report [.error {} problem]).output.diagnostics.hasErrors = true := by
  show Diagnostics.hasErrors (_ ++ [_]) = true
  rw [Diagnostics.hasErrors_append]
  exact Bool.or_true _

/-- A call returns an output and changes neither the program nor a representation. -/
structure Repeats (c : Compiler) (builtins : Builtins) (units : List SourceUnit) (options : Options)
    (context : Context) (output : Output) : Prop where
  result : (c.compile builtins context units options).1 = .ok output
  program : (c.compile builtins context units options).2.program = context.program
  irs : (c.compile builtins context units options).2.closures.map Closure.ir =
    context.closures.map Closure.ir

theorem Stock.failed_again (h : c.Stock) (hf : c.frontend.Stateless)
    (herror : (c.analysis builtins units context).error = some .aborted) (after : Context) :
    c.Repeats builtins units options after (c.analyzed builtins units context).output := by
  have hanalysis : c.analysis builtins units after = c.analysis builtins units context :=
    hf _ _ _ _
  have hrun : c.run builtins units options { context := after } =
      .error ⟨.aborted, c.analyzed builtins units after⟩ :=
    h.run_of_exit (.failed (hanalysis ▸ herror))
  have hagain := compile_of_aborted hrun
  constructor
  · rw [hagain, analyzed, hanalysis]
    rfl
  · rw [hagain, program_analyzed]
  · rw [hagain, closures_analyzed]

theorem Stock.choices_again (h : c.Stock) (hf : c.frontend.Stateless)
    (hp : c.Prepares builtins units context)
    (hbackend : c.backends.find? options.target = some backend)
    (hmode : options.mode = .generateChoice)
    (hclean : (c.resolved builtins units options context).output.diagnostics.hasErrors = false)
    (hafter : after.closures = (c.resolved builtins units options context).context.closures) :
    c.Repeats builtins units options after
      (generateChoices options.symbol (c.resolved builtins units options context)).output := by
  obtain ⟨hp', houtput, hcore⟩ := hp.again hf hclean hafter
  have hagain := compile_of_ok (h.run_of_exit (.choices hp' hbackend hmode))
  constructor
  · have hcatalog := Closures.catalog_of_core hcore options.symbol
    rw [hagain, generateChoices, generateChoices, houtput, hcatalog]
  · rw [hagain, context_generateChoices, program_resolved]
  · rw [hagain, context_generateChoices, hafter]
    exact Closures.ir_of_core hcore

/-- The program that a call resumes may be the one it resumed before or the one it left. -/
theorem Stock.emission_again (h : c.Stock) (hf : c.frontend.Stateless)
    (hp : c.Prepares builtins units context)
    (hbackend : c.backends.find? options.target = some backend)
    (hmode : options.mode = .produceShader)
    (hclean : (c.resolved builtins units options context).output.diagnostics.hasErrors = false)
    (hafter : after.closures = (c.resolved builtins units options context).context.closures)
    (hstopped : ∀ cause, (c.emission builtins units options context backend).error = some cause →
      cause = .aborted ∧ after.program = context.program)
    (hproduced : (c.emission builtins units options context backend).error = none →
      after.program = some (c.lowered builtins units options context).output.program) :
    c.Repeats builtins units options after
      (c.emitted builtins units options context backend).output := by
  obtain ⟨hp', houtput, hcore⟩ := hp.again hf hclean hafter
  have hirs := Closures.irs_of_ir (Closures.ir_of_core hcore)
  have hprogram : (c.lowered builtins units options after).output.program =
      (c.lowered builtins units options context).output.program := by
    rw [program_lowered, hirs]
    cases herror : (c.emission builtins units options context backend).error with
    | some cause => rw [(hstopped cause herror).2, program_lowered]
    | none =>
      rw [hproduced herror, program_lowered, Option.getD_some, LoweredProgram.lowerAll_lowerAll]
  obtain ⟨hemission, hemitted⟩ := emitted_again hf houtput hprogram backend
  rw [← houtput] at hclean
  have hclosures :
      (c.emitted builtins units options after backend).context.closures.map Closure.ir =
        after.closures.map Closure.ir := by
    rw [context_emitted, hafter]
    exact Closures.ir_of_core hcore
  cases herror : (c.emission builtins units options context backend).error with
  | some cause =>
    obtain ⟨rfl, _⟩ := hstopped cause herror
    rw [← hemission] at herror
    have hagain := compile_of_aborted (h.run_of_exit (.stopped hp' hbackend hmode hclean herror))
    constructor
    · rw [hagain, hemitted]
    · rw [hagain, context_emitted, program_resolved]
    · rw [hagain, hclosures]
  | none =>
    have hleft := hproduced herror
    rw [← hemission] at herror
    have hagain := compile_of_ok (h.run_of_exit (.produced hp' hbackend hmode hclean herror))
    constructor
    · rw [hagain, output_keepProgram, hemitted]
    · rw [hagain, program_keepProgram, program_emitted, hprogram, hleft]
    · rw [hagain, closures_keepProgram, hclosures]

/-- A call without errors, made again with the same arguments on what it left, returns the same and
changes neither the program nor a representation. -/
theorem compile_again (h : c.Stock) (hf : c.frontend.Stateless) {output : Output}
    (hok : (c.compile builtins context units options).1 = .ok output)
    (hclean : output.diagnostics.hasErrors = false) :
    let after := (c.compile builtins context units options).2
    let again := c.compile builtins after units options
    again.1 = .ok output ∧ again.2.program = after.program ∧
      again.2.closures.map Closure.ir = after.closures.map Closure.ir := by
  obtain ⟨hreached, haborted⟩ := compile_fst_eq_ok_iff.mp hok
  suffices hrepeats : c.Repeats builtins units options
      (c.compile builtins context units options).2 output from
    ⟨hrepeats.result, hrepeats.program, hrepeats.irs⟩
  have hexit := h.run_exit builtins units options context
  rw [compile_snd]
  rw [← hreached] at hclean ⊢
  generalize c.run builtins units options { context } = result at haborted hexit hclean ⊢
  cases hexit with
  | rejected _ hrejected => exact absurd (hclean.symm.trans hrejected) Bool.false_ne_true
  | unbuilt _ _ hunbuilt => exact absurd (hclean.symm.trans hunbuilt) Bool.false_ne_true
  | unresolved _ _ _ hunresolved => exact absurd (hclean.symm.trans hunresolved) Bool.false_ne_true
  | untargeted _ _ | library _ _ _ =>
    exact absurd (hclean.symm.trans (hasErrors_abort _ _)) Bool.false_ne_true
  | @failed cause herror =>
    obtain rfl : cause = .aborted := haborted _ rfl
    exact h.failed_again hf herror _
  | choices hp hbackend hmode => exact h.choices_again hf hp hbackend hmode hclean rfl
  | @stopped backend cause hp hbackend hmode hresolved hstopped =>
    have hcontext : (c.emitted builtins units options context backend).context =
        (c.resolved builtins units options context).context := context_emitted
    rw [reached_error, hcontext]
    refine h.emission_again hf hp hbackend hmode hresolved rfl (fun cause' hcause => ?_)
      fun hnone => ?_
    · rw [hstopped] at hcause
      cases hcause
      exact ⟨haborted _ rfl, program_resolved⟩
    · rw [hstopped] at hnone
      cases hnone
  | @produced backend hp hbackend hmode hresolved hemitted =>
    have hclosures : (keepProgram (c.emitted builtins units options context
        backend)).context.closures =
        (c.resolved builtins units options context).context.closures := by
      rw [closures_keepProgram, context_emitted]
    have hprogram : (keepProgram (c.emitted builtins units options context
        backend)).context.program =
        some (c.lowered builtins units options context).output.program := by
      rw [program_keepProgram, program_emitted]
    rw [reached_ok, output_keepProgram]
    refine h.emission_again hf hp hbackend hmode hresolved hclosures (fun cause hcause => ?_)
      fun _ => hprogram
    rw [hemitted] at hcause
    cases hcause

/-- The second call rewrites the layer of the tint once more, and returns what the first did. -/
theorem compile_again_overlayCompiler :
    ∃ output, (overlayCompiler.compile ∅ {} overlayUnits {}).1 = .ok output ∧
      output.diagnostics.hasErrors = false ∧ output.sources.find? "overlay" = some "overlay" ∧
      (overlayCompiler.compile ∅ overlayContext overlayUnits {}).1 = .ok output ∧
      (overlayCompiler.compile ∅ overlayContext overlayUnits {}).2.program =
        overlayContext.program ∧
      (overlayCompiler.compile ∅ overlayContext overlayUnits {}).2.closures.map Closure.ir =
        overlayContext.closures.map Closure.ir := by
  have hok := congrArg Prod.fst (compile_of_ok run_overlayUnits)
  have hclean : (overlayCompiler.emitted ∅ overlayUnits {} {}
      overlayBackend).output.diagnostics.hasErrors = false := by
    simp only [emitted, emission, lowered, resolved, resolveVariants, Closure.resolve,
      Closure.variant_eq_round]
    decide +kernel
  have hsources : (overlayCompiler.emitted ∅ overlayUnits {} {}
      overlayBackend).output.sources.find? "overlay" = some "overlay" := by
    simp only [emitted, emission, lowered, resolved, resolveVariants, Closure.resolve,
      Closure.variant_eq_round]
    decide +kernel
  exact ⟨_, hok, hclean, hsources,
    compile_again stock_overlayCompiler (fun _ _ _ _ => rfl) hok hclean⟩

end Compiler

end ShaderVariants
