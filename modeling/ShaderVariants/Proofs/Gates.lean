import ShaderVariants.Proofs.Accumulation

/-! # What stands between the stages

Errors are looked for between some of the stages, and each of the ways in which a call ends
(`Compiler.Exit`) tells which stages it has been through. So it also tells what the call can have
reported and returned: sources only after everything was found in order up to the backend, a
catalog only if it was asked for, and a failure only if a collaborator failed. -/
namespace ShaderVariants

/-- Analysis reports only problems of the open kind. What backends report is free. -/
def Frontend.Plain (frontend : Frontend) : Prop :=
  ∀ declarations builtins symbols,
    ∀ d ∈ (frontend.analyze declarations builtins symbols).diagnostics, d.problem.code = "other"

namespace Backend
variable {backend : Backend} {symbols : SymbolTable}

/-- The backend is asked for the shaders up to the first that it fails on. -/
theorem diagnostics_emission (backend : Backend) (symbols : SymbolTable)
    (sources : OrderedMap String String) (shaders : List LoweredShader) :
    ∃ asked, asked <+: shaders ∧ (backend.emission symbols sources shaders).diagnostics =
      asked.flatMap fun shader => (backend.generate symbols shader).diagnostics := by
  induction shaders generalizing sources with
  | nil => exact ⟨[], List.prefix_rfl, rfl⟩
  | cons shader rest ih =>
    rw [emission]
    cases (backend.generate symbols shader).outcome with
    | error cause => exact ⟨[shader], List.prefix_append [shader] rest, (List.append_nil _).symm⟩
    | ok source =>
      obtain ⟨asked, hasked, hdiagnostics⟩ := ih (sources.insert shader.name source)
      refine ⟨shader :: asked, List.prefix_cons_inj shader |>.mpr hasked, ?_⟩
      dsimp only
      rw [hdiagnostics, List.flatMap_cons]

theorem error_emission {sources : OrderedMap String String} {shaders : List LoweredShader}
    {cause : CompileError} (h : (backend.emission symbols sources shaders).error = some cause) :
    ∃ shader ∈ shaders, (backend.generate symbols shader).outcome = .error cause := by
  induction shaders generalizing sources with
  | nil => cases h
  | cons shader rest ih =>
    rw [emission] at h
    cases houtcome : (backend.generate symbols shader).outcome with
    | error cause' =>
      rw [houtcome] at h
      cases h
      exact ⟨shader, List.mem_cons_self, houtcome⟩
    | ok source =>
      rw [houtcome] at h
      obtain ⟨s, hs, hcause⟩ := ih h
      exact ⟨s, List.mem_cons_of_mem shader hs, hcause⟩

end Backend

namespace Compiler
variable {c : Compiler} {builtins : Builtins} {units : List SourceUnit} {options : Options}
  {context : Context} {backend : Backend}

/-- The condition on the way to the backend, said of the stages themselves. -/
theorem Stock.prepares_iff (h : c.Stock) : c.Prepares builtins units context ↔
    ∃ analyzed built, c.analyze (.ofUnits units) builtins { context } = .ok analyzed ∧
      c.buildClosures analyzed = .ok built ∧ built.output.diagnostics.hasErrors = false := by
  constructor
  · intro hp
    refine ⟨_, _, ?_, h.buildClosures_eq _, hp.clean⟩
    rw [analyze_eq, hp.analysis]
  · intro hstages
    obtain ⟨analyzed, built, hanalyzed, hbuilt, hclean⟩ := hstages
    rw [analyze_eq] at hanalyzed
    cases herror : (c.analysis builtins units context).error with
    | some cause => rw [herror] at hanalyzed; cases hanalyzed
    | none =>
      rw [herror] at hanalyzed
      cases hanalyzed
      rw [h.buildClosures_eq] at hbuilt
      cases hbuilt
      exact ⟨herror, hclean⟩

theorem code_prepared (h : c.frontend.Plain) :
    ∀ d ∈ (c.prepared builtins units context).output.diagnostics, d.problem.code = "other" := by
  rw [diagnostics_prepared]
  exact List.forall_mem_append.mpr ⟨h _ _ _, fun d hd =>
    ((SymbolTable.flattened_flattenAll _ _).reports d hd).2⟩

/-- Resolving finds problems of its own kinds, and the schedule of its own. -/
theorem code_resolved (h : c.frontend.Plain) :
    ∀ d ∈ (c.resolved builtins units options context).output.diagnostics,
      d.problem.code ≠ "unsupported-compiler-mode" := by
  rw [diagnostics_resolved]
  refine List.forall_mem_append.mpr ⟨List.forall_mem_append.mpr ⟨?_, ?_⟩, ?_⟩
  · intro d hd
    rw [code_prepared h d hd]
    decide
  · intro d hd
    rw [(reports_readSchedule options d hd).2]
    decide
  · intro d hd
    obtain ⟨closure, _, hd⟩ := List.mem_flatMap.mp hd
    have hkind := (closure.reports_resolve _ d hd).2
    generalize d.problem = problem at hkind ⊢
    cases problem with
    | illegalWorld _ _ | circularity _ | unavailable _ _ _ => simp [Problem.code]
    | _ => cases hkind

/-! ## One lemma for each gate -/

/-- What analysis rejects is not built. -/
theorem Stock.closures_of_rejected (h : c.Stock)
    (hrejected : (c.analysis builtins units context).diagnostics.hasErrors = true ∨
      (c.analysis builtins units context).error ≠ none) :
    (c.compile builtins context units options).2.closures = context.closures := by
  rw [compile_snd]
  cases herror : (c.analysis builtins units context).error with
  | some cause => rw [h.run_of_exit (.failed herror), reached_error, closures_analyzed]
  | none =>
    have herrors := hrejected.resolve_right fun hne => hne herror
    rw [h.run_of_exit (.rejected herror herrors), reached_error, closures_analyzed]

/-- Without a backend the call ends before the schedule is read. -/
theorem Stock.compile_of_untargeted (h : c.Stock) (hplain : c.frontend.Plain)
    (hp : c.Prepares builtins units context)
    (hbackend : c.backends.find? options.target = none) :
    ∃ output, (c.compile builtins context units options).1 = .ok output ∧
      output.diagnostics.errors = [.error {} (.unsupportedTarget options.target.text)] ∧
      (∀ d ∈ output.diagnostics,
        d.problem.code ∉ ["schedule-syntax", "invalid-choice-for-key"]) ∧
      ∀ name, ((c.compile builtins context units options).2.closures.find? name).bind Closure.ir =
        (context.closures.find? name).bind Closure.ir := by
  have hcompile := compile_of_aborted (h.run_of_exit (.untargeted hp hbackend))
  refine ⟨_, congrArg Prod.fst hcompile, ?_, ?_, fun name => ?_⟩
  · show Diagnostics.errors (_ ++ [_]) = _
    rw [Diagnostics.errors_append, Diagnostics.errors_of_clean hp.clean]
    rfl
  · refine List.forall_mem_append.mpr ⟨fun d hd => ?_, fun d hd => ?_⟩
    · rw [code_prepared hplain d hd]
      decide
    · rw [List.mem_singleton.mp hd]
      simp [Diagnostic.error, Problem.code]
  · rw [hcompile, Call.context_report]
    exact ir_prepared c builtins units context name

/-- Once the backend is asked, all errors are its own. -/
theorem errors_emitted (backend : Backend)
    (hresolved : (c.resolved builtins units options context).output.diagnostics.hasErrors = false) :
    ∃ asked, asked <+:
        (c.emitted builtins units options context backend).output.program.shaders.filter
          (isRequested units options.symbol ·.name) ∧
      (c.emitted builtins units options context backend).output.diagnostics.errors =
        Diagnostics.errors (asked.flatMap fun shader =>
          (backend.generate (c.analysis builtins units context).value shader).diagnostics) := by
  obtain ⟨asked, hasked, hdiagnostics⟩ := backend.diagnostics_emission
    (c.analysis builtins units context).value ∅
    ((c.lowered builtins units options context).output.program.shaders.filter
      (isRequested units options.symbol ·.name))
  have hreports : (c.emission builtins units options context backend).diagnostics =
      asked.flatMap fun shader =>
        (backend.generate (c.analysis builtins units context).value shader).diagnostics :=
    hdiagnostics
  refine ⟨asked, hasked, ?_⟩
  calc Diagnostics.errors ((c.resolved builtins units options context).output.diagnostics ++
        (c.emission builtins units options context backend).diagnostics)
    _ = Diagnostics.errors (c.emission builtins units options context backend).diagnostics := by
      rw [Diagnostics.errors_append, Diagnostics.errors_of_clean hresolved, List.nil_append]
    _ = _ := by rw [hreports]

/-- Sources come from a backend, and nothing before it found an error. -/
theorem Stock.errors_of_sources (h : c.Stock) {output : Output}
    (hok : (c.compile builtins context units options).1 = .ok output)
    (hsources : output.sources ≠ ∅) :
    options.mode = .produceShader ∧ ∃ backend, c.backends.find? options.target = some backend ∧
      ∃ asked, asked <+: output.program.shaders.filter (isRequested units options.symbol ·.name) ∧
        output.diagnostics.errors = Diagnostics.errors (asked.flatMap fun shader =>
          (backend.generate (c.analysis builtins units context).value shader).diagnostics) := by
  obtain ⟨rfl, _⟩ := compile_fst_eq_ok_iff.mp hok
  have hexit := h.run_exit builtins units options context
  generalize c.run builtins units options { context } = result at hexit hsources ⊢
  cases hexit with
  | stopped _ hbackend hmode hresolved _ => exact ⟨hmode, _, hbackend, errors_emitted _ hresolved⟩
  | produced _ hbackend hmode hresolved _ =>
    rw [reached_ok, output_keepProgram]
    exact ⟨hmode, _, hbackend, errors_emitted _ hresolved⟩
  | failed _ | rejected _ _ | unbuilt _ _ _ | untargeted _ _ | library _ _ _ | choices _ _ _
  | unresolved _ _ _ _ => exact absurd rfl hsources

/-- A catalog is made in one mode only. -/
theorem Stock.mode_of_catalog (h : c.Stock) {output : Output}
    (hok : (c.compile builtins context units options).1 = .ok output)
    (hcatalog : output.catalog ≠ {}) : options.mode = .generateChoice := by
  obtain ⟨rfl, _⟩ := compile_fst_eq_ok_iff.mp hok
  have hexit := h.run_exit builtins units options context
  generalize c.run builtins units options { context } = result at hexit hcatalog
  cases hexit with
  | choices _ _ hmode => exact hmode
  | failed _ | rejected _ _ | unbuilt _ _ _ | untargeted _ _ | library _ _ _ | unresolved _ _ _ _
  | stopped _ _ _ _ _ | produced _ _ _ _ _ => exact absurd rfl hcatalog

/-- A library is refused after the closures were resolved. -/
theorem Stock.compile_of_library (h : c.Stock) (hplain : c.frontend.Plain)
    (hp : c.Prepares builtins units context)
    (hbackend : (c.backends.find? options.target).isSome)
    (hmode : options.mode = .produceLibrary) :
    ∃ output, (c.compile builtins context units options).1 = .ok output ∧
      output.diagnostics.ofCode "unsupported-compiler-mode" =
        [.error {} (.unsupportedMode options.mode.text)] ∧
      output.sources = ∅ ∧ output.catalog = {} := by
  obtain ⟨backend, hbackend⟩ := Option.isSome_iff_exists.mp hbackend
  have hcompile := compile_of_aborted (h.run_of_exit (.library hp hbackend hmode))
  refine ⟨_, congrArg Prod.fst hcompile, ?_, rfl, rfl⟩
  show Diagnostics.ofCode (_ ++ [_]) _ = _
  rw [Diagnostics.ofCode_append, Diagnostics.ofCode_eq_nil (code_resolved hplain)]
  simp [Diagnostics.ofCode, Diagnostic.error, Problem.code]

/-- A call fails only if a collaborator fails, and as it does. -/
theorem Stock.cause_of_error (h : c.Stock) {cause : CompileError}
    (herror : (c.compile builtins context units options).1 = .error cause) :
    cause ≠ .aborted ∧ ((c.analysis builtins units context).error = some cause ∨
      ∃ backend, c.backends.find? options.target = some backend ∧
        ∃ shader, isRequested units options.symbol shader.name = true ∧
          (backend.generate (c.analysis builtins units context).value shader).outcome =
            .error cause) := by
  obtain ⟨hcause, call, hrun⟩ := compile_fst_eq_error_iff.mp herror
  refine ⟨hcause, ?_⟩
  cases h.run_eq_iff.mp hrun with
  | failed hfailed => exact .inl hfailed
  | stopped _ hbackend _ _ hstopped =>
    obtain ⟨shader, hshader, houtcome⟩ := Backend.error_emission hstopped
    exact .inr ⟨_, hbackend, shader, (List.mem_filter.mp hshader).2, houtcome⟩
  | rejected _ _ | unbuilt _ _ _ | untargeted _ _ | library _ _ _ | unresolved _ _ _ _ =>
    exact absurd rfl hcause

/-- What a call reports, returns and leaves, by the gate at which it ends. -/
theorem stage_gating (h : c.Stock) (hplain : c.frontend.Plain) (builtins : Builtins)
    (context : Context) (units : List SourceUnit) (options : Options) :
    let analysis := c.frontend.analyze (.ofUnits units) builtins context.symbols
    let result := (c.compile builtins context units options).1
    let after := (c.compile builtins context units options).2
    let builds := ∃ analyzed built, c.analyze (.ofUnits units) builtins { context } = .ok analyzed ∧
      c.buildClosures analyzed = .ok built ∧ built.output.diagnostics.hasErrors = false
    -- errors of analysis
    (analysis.diagnostics.hasErrors = true ∨ analysis.error ≠ none →
      after.closures = context.closures) ∧
    -- no backend
    (builds → c.backends.find? options.target = none → ∃ output, result = .ok output ∧
      output.diagnostics.errors = [.error {} (.unsupportedTarget options.target.text)] ∧
      (∀ d ∈ output.diagnostics,
        d.problem.code ∉ ["schedule-syntax", "invalid-choice-for-key"]) ∧
      ∀ name, (after.closures.find? name).bind Closure.ir =
        (context.closures.find? name).bind Closure.ir) ∧
    -- sources
    (∀ output, result = .ok output → output.sources ≠ ∅ → options.mode = .produceShader ∧
      ∃ backend, c.backends.find? options.target = some backend ∧
        ∃ asked, asked <+: output.program.shaders.filter
            (isRequested units options.symbol ·.name) ∧
          output.diagnostics.errors = Diagnostics.errors (asked.flatMap fun shader =>
            (backend.generate analysis.value shader).diagnostics)) ∧
    -- a catalog
    (∀ output, result = .ok output → output.catalog ≠ {} → options.mode = .generateChoice) ∧
    -- a library
    (builds → (c.backends.find? options.target).isSome → options.mode = .produceLibrary →
      ∃ output, result = .ok output ∧
        output.diagnostics.ofCode "unsupported-compiler-mode" =
          [.error {} (.unsupportedMode options.mode.text)] ∧
        output.sources = ∅ ∧ output.catalog = {}) ∧
    -- failures
    (∀ cause, result = .error cause → cause ≠ .aborted ∧ (analysis.error = some cause ∨
      ∃ backend, c.backends.find? options.target = some backend ∧
        ∃ shader, isRequested units options.symbol shader.name = true ∧
          (backend.generate analysis.value shader).outcome = .error cause)) := by
  intro analysis result after builds
  have hbuilds : builds → c.Prepares builtins units context := h.prepares_iff.mpr
  refine ⟨h.closures_of_rejected, fun hp hbackend => ?_, fun _ => h.errors_of_sources,
    fun _ => h.mode_of_catalog, fun hp hbackend hmode => ?_, fun _ => h.cause_of_error⟩
  · exact h.compile_of_untargeted hplain (hbuilds hp) hbackend
  · exact h.compile_of_library hplain (hbuilds hp) hbackend hmode

/-- A target without a backend is the only error, though the schedule cannot be read; and a library
is refused. -/
theorem stage_gating_overlayCompiler :
    (readSchedule { target := .hlsl, schedule := "tint = " }).2.hasErrors = true ∧
    (∃ output, (overlayCompiler.compile ∅ {} overlayUnits
        { target := .hlsl, schedule := "tint = " }).1 = .ok output ∧
      output.diagnostics.errors = [.error {} (.unsupportedTarget Target.hlsl.text)] ∧
      ∀ d ∈ output.diagnostics, d.problem.code ∉ ["schedule-syntax", "invalid-choice-for-key"]) ∧
    ∃ output, (overlayCompiler.compile ∅ {} overlayUnits { mode := .produceLibrary }).1 =
        .ok output ∧
      output.diagnostics.ofCode "unsupported-compiler-mode" =
        [.error {} (.unsupportedMode Mode.produceLibrary.text)] ∧
      output.sources = ∅ ∧ output.catalog = {} := by
  have hplain : overlayCompiler.frontend.Plain := fun _ _ _ _ hd => nomatch hd
  have hbuilds := stock_overlayCompiler.prepares_iff.mp
    (⟨rfl, by decide +kernel⟩ : overlayCompiler.Prepares ∅ overlayUnits {})
  refine ⟨by decide +kernel, ?_, ?_⟩
  · obtain ⟨_, huntargeted, _⟩ := stage_gating stock_overlayCompiler hplain ∅ {} overlayUnits
      { target := .hlsl, schedule := "tint = " }
    obtain ⟨output, hok, herrors, hcodes, _⟩ := huntargeted hbuilds rfl
    exact ⟨output, hok, herrors, hcodes⟩
  · obtain ⟨_, _, _, _, hlibrary, _⟩ := stage_gating stock_overlayCompiler hplain ∅ {} overlayUnits
      { mode := .produceLibrary }
    exact hlibrary hbuilds rfl rfl

end Compiler

end ShaderVariants
