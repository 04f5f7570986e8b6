import ShaderVariants.Compile.Session
import ShaderVariants.Proofs.Maps

/-! # The stages of a compile call

With the flattening and the lowering of the library only analysis and the backend can stop a call
for reasons of their own. What the stages leave can then be said without running them: `analyzed`,
`prepared`, `resolved`, `lowered` and `emitted` are the call after each. `Exit` lists the ways in
which a call ends, with the state it ends in, and `run_eq_iff` says that these are all. -/
namespace ShaderVariants

/-- A compiler that flattens and lowers as the library does. Analysis and backends are free. -/
structure Compiler.Stock (c : Compiler) : Prop where
  closure : c.frontend.closure = Frontend.stockClosure
  generator : c.generator = .stock

theorem ok_bind {α β ε : Type} (a : α) (f : α → Except ε β) : (Except.ok a >>= f) = f a := rfl

/-- A loop whose steps all succeed, seen through what they change. -/
theorem foldlM_ok {α β γ ε : Type} {step : β → α → Except ε β} (put : γ → β) {next : γ → α → γ}
    (h : ∀ s a, step (put s) a = .ok (put (next s a))) (l : List α) (s : γ) :
    l.foldlM step (put s) = .ok (put (l.foldl next s)) := by
  induction l generalizing s with
  | nil => rfl
  | cons a l ih => rw [List.foldlM_cons, h, List.foldl_cons, ← ih]; rfl

/-- A loop that changes nothing. -/
theorem foldlM_self {α β ε : Type} {step : β → α → Except ε β} {s : β} {l : List α}
    (h : ∀ a ∈ l, step s a = .ok s) : l.foldlM step s = .ok s := by
  induction l with
  | nil => rfl
  | cons a l ih =>
    rw [List.foldlM_cons, h a List.mem_cons_self]
    exact ih fun b hb => h b (List.mem_cons_of_mem a hb)

/-! ## What the loops leave -/

namespace SymbolTable

/-- Flatten a shader, unless it is a module or has a closure. -/
def flatten (symbols : SymbolTable) (state : Closures × Diagnostics) (shader : Shader) :
    Closures × Diagnostics :=
  if shader.isModule || state.1.contains shader.name then state
  else match Closure.ofShader symbols shader with
    | .ok closure => (state.1.insert shader.name closure, state.2)
    | .error d => (state.1, state.2 ++ [d])

/-- The closures of all shaders, and complaints about those that have none. -/
def flattenAll (symbols : SymbolTable) (closures : Closures) : Closures × Diagnostics :=
  symbols.dependenceOrder.foldl symbols.flatten (closures, [])

end SymbolTable

/-- Lower declarations and representations one after the other. -/
def LoweredProgram.lowerAll (p : LoweredProgram) (declarations : Declarations)
    (irs : List ShaderIR) : LoweredProgram :=
  let p := declarations.structs.foldl (fun p decl => p.addStruct ⟨decl.name, decl.fields⟩) p
  let p := declarations.functions.foldl (fun p decl => p.addFunction decl.name) p
  irs.foldl (fun p ir => p.addShader ir.lower) p

/-- The sources of shaders, up to the first that the backend fails on. -/
def Backend.emission (backend : Backend) (symbols : SymbolTable) :
    OrderedMap String String → List LoweredShader → Change (OrderedMap String String)
  | sources, [] => { value := sources }
  | sources, shader :: rest =>
    let answer := backend.generate symbols shader
    match answer.outcome with
    | .error cause => { value := sources, diagnostics := answer.diagnostics, error := some cause }
    | .ok source =>
      let change := backend.emission symbols (sources.insert shader.name source) rest
      { change with diagnostics := answer.diagnostics ++ change.diagnostics }

namespace Call

theorem report_nil (call : Call) : call.report [] = call := by
  rw [report, List.append_nil]

@[simp]
theorem context_report (call : Call) (ds : Diagnostics) : (call.report ds).context = call.context :=
  rfl

def withClosures (call : Call) (state : Closures × Diagnostics) : Call :=
  { call.report state.2 with context.closures := state.1 }

theorem setProgram_setProgram (call : Call) (p q : LoweredProgram) :
    (call.setProgram p).setProgram q = call.setProgram q := rfl

def withSources (call : Call) (sources : OrderedMap String String) : Call :=
  { call with output.sources := sources }

theorem gate_of_errors {call : Call} (h : call.output.diagnostics.hasErrors = true) :
    gate call = .error ⟨.aborted, call⟩ := if_pos h

theorem gate_of_clean {call : Call} (h : call.output.diagnostics.hasErrors = false) :
    gate call = .ok call := if_neg (by rw [h]; exact Bool.false_ne_true)

end Call

namespace Compiler
open Call

variable {c : Compiler}

theorem Stock.buildClosure_eq (h : c.Stock) (call : Call) (state : Closures × Diagnostics)
    (shader : Shader) : c.buildClosure (call.withClosures state) shader =
      .ok (call.withClosures (call.context.symbols.flatten state shader)) := by
  unfold buildClosure SymbolTable.flatten
  by_cases hskip : (shader.isModule || state.1.contains shader.name) = true
  · exact (if_pos hskip).trans (by rw [if_pos hskip])
  · refine (if_neg hskip).trans ?_
    rw [if_neg hskip, h.closure]
    show Call.take _ (Frontend.stockClosure call.context.symbols shader) _ = _
    unfold Frontend.stockClosure
    cases Closure.ofShader call.context.symbols shader with
    | ok closure => simp [take, withClosures, report]
    | error d => simp [take, withClosures, report]

theorem Stock.buildClosures_eq (h : c.Stock) (call : Call) : c.buildClosures call =
    .ok (call.withClosures (call.context.symbols.flattenAll call.context.closures)) := by
  have hfold := foldlM_ok call.withClosures (h.buildClosure_eq call)
    call.context.symbols.dependenceOrder (call.context.closures, [])
  rw [show call.withClosures (call.context.closures, []) = call from report_nil call] at hfold
  exact hfold

theorem Stock.lowerStructs_eq (h : c.Stock) (structs : List StructDecl) (call : Call) :
    c.lowerStructs structs call = .ok (call.setProgram (structs.foldl
      (fun p decl => p.addStruct ⟨decl.name, decl.fields⟩) call.output.program)) := by
  rw [lowerStructs, h.generator]
  refine foldlM_ok call.setProgram (fun p decl => ?_) structs call.output.program
  rw [apply, Generator.stock, report_nil]
  rfl

theorem Stock.lowerFunctions_eq (h : c.Stock) (functions : List FunctionDecl) (call : Call) :
    c.lowerFunctions functions call = .ok (call.setProgram (functions.foldl
      (fun p decl => p.addFunction decl.name) call.output.program)) := by
  rw [lowerFunctions, h.generator]
  refine foldlM_ok call.setProgram (fun p decl => ?_) functions call.output.program
  rw [apply, Generator.stock, report_nil]
  rfl

theorem Stock.lowerShaders_eq (h : c.Stock) (call : Call) :
    c.lowerShaders call = .ok (call.setProgram
      ((call.context.closures.values.filterMap Closure.ir).foldl
        (fun p ir => p.addShader ir.lower) call.output.program)) := by
  rw [lowerShaders, h.generator]
  refine foldlM_ok call.setProgram (fun p ir => ?_) _ call.output.program
  rw [apply, Generator.stock, report_nil]
  rfl

/-- There is nothing to insert, so every representation is put back as it was. -/
theorem Stock.insertImports_eq (h : c.Stock) (call : Call) : c.insertImports call = .ok call := by
  rw [insertImports, h.generator]
  refine foldlM_self fun e he => ?_
  obtain ⟨name, closure⟩ := e
  cases hir : closure.ir with
  | none => simp only [hir]
  | some ir =>
    simp only [hir, apply, Generator.stock, report_nil]
    have hsame : call.context.closures.modify name (fun closure => { closure with ir := some ir }) =
        call.context.closures := by
      refine OrderedMap.ext (map_eq_self fun e' he' => ?_)
      split
      · rename_i hname
        obtain ⟨name', closure'⟩ := e'
        obtain rfl : name' = name := hname
        have hfind := OrderedMap.find?_eq_some_iff.mpr he'
        rw [OrderedMap.find?_eq_some_iff.mpr he] at hfind
        cases hfind
        simp only [← hir]
      · rfl
    rw [hsame]

theorem emit_eq (backend : Backend) (units : List SourceUnit) (symbol : Option String)
    (call : Call) :
    emit backend units symbol call = call.apply (backend.emission call.context.symbols
      call.output.sources
      (call.output.program.shaders.filter fun s => isRequested units symbol s.name))
        withSources := by
  unfold emit
  generalize call.output.program.shaders.filter _ = shaders
  induction shaders generalizing call with
  | nil => rw [Backend.emission, apply, report_nil]; rfl
  | cons shader rest ih =>
    rw [List.foldlM_cons, take, Backend.emission]
    cases (backend.generate call.context.symbols shader).outcome with
    | error cause => rfl
    | ok source =>
      refine (ih _).trans ?_
      rw [apply, apply]
      simp only [report, withSources, List.append_assoc]

/-! ## The call after each stage -/

section States
variable (c : Compiler) (builtins : Builtins) (units : List SourceUnit) (options : Options)
  (context : Context)

def analysis : Change SymbolTable :=
  c.frontend.analyze (.ofUnits units) builtins context.symbols

def analyzed : Call where
  context := { context with symbols := (c.analysis builtins units context).value }
  output := { diagnostics := (c.analysis builtins units context).diagnostics }

/-- With a closure for every shader, and attribute references replaced. -/
def prepared : Call :=
  let call := c.analyzed builtins units context
  resolveIndirections (call.withClosures (call.context.symbols.flattenAll context.closures))

/-- With the closures resolved under the schedule of the options. -/
def resolved : Call :=
  resolveVariants (readSchedule options).1
    ((c.prepared builtins units context).report (readSchedule options).2)

def lowered : Call :=
  let call := c.resolved builtins units options context
  call.setProgram ((context.program.getD {}).lowerAll (.ofUnits units)
    (call.context.closures.values.filterMap Closure.ir))

def emission (backend : Backend) : Change (OrderedMap String String) :=
  let call := c.lowered builtins units options context
  backend.emission call.context.symbols ∅
    (call.output.program.shaders.filter fun s => isRequested units options.symbol s.name)

def emitted (backend : Backend) : Call :=
  let emission := c.emission builtins units options context backend
  ((c.lowered builtins units options context).report emission.diagnostics).withSources
    emission.value

/-- Analysis succeeds, and neither it nor the closures have an error. -/
structure Prepares : Prop where
  analysis : (c.analysis builtins units context).error = none
  clean : (c.prepared builtins units context).output.diagnostics.hasErrors = false

/-- The ways in which a call ends. -/
inductive Exit : Except Halt Call → Prop
  | failed {cause : CompileError}
    (herror : (c.analysis builtins units context).error = some cause) :
    Exit (.error ⟨cause, c.analyzed builtins units context⟩)
  | rejected (herror : (c.analysis builtins units context).error = none)
    (hrejected : (c.analyzed builtins units context).output.diagnostics.hasErrors = true) :
    Exit (.error ⟨.aborted, c.analyzed builtins units context⟩)
  | unbuilt (herror : (c.analysis builtins units context).error = none)
    (hclean : (c.analyzed builtins units context).output.diagnostics.hasErrors = false)
    (hunbuilt : (c.prepared builtins units context).output.diagnostics.hasErrors = true) :
    Exit (.error ⟨.aborted, c.prepared builtins units context⟩)
  | untargeted (hp : c.Prepares builtins units context)
    (hbackend : c.backends.find? options.target = none) :
    Exit (.error ⟨.aborted, (c.prepared builtins units context).report
      [.error {} (.unsupportedTarget options.target.text)]⟩)
  | library {backend : Backend} (hp : c.Prepares builtins units context)
    (hbackend : c.backends.find? options.target = some backend)
    (hmode : options.mode = .produceLibrary) :
    Exit (.error ⟨.aborted, (c.resolved builtins units options context).report
      [.error {} (.unsupportedMode options.mode.text)]⟩)
  | choices {backend : Backend} (hp : c.Prepares builtins units context)
    (hbackend : c.backends.find? options.target = some backend)
    (hmode : options.mode = .generateChoice) :
    Exit (.ok (generateChoices options.symbol (c.resolved builtins units options context)))
  | unresolved {backend : Backend} (hp : c.Prepares builtins units context)
    (hbackend : c.backends.find? options.target = some backend)
    (hmode : options.mode = .produceShader)
    (hunresolved :
      (c.resolved builtins units options context).output.diagnostics.hasErrors = true) :
    Exit (.error ⟨.aborted, c.resolved builtins units options context⟩)
  | stopped {backend : Backend} {cause : CompileError} (hp : c.Prepares builtins units context)
    (hbackend : c.backends.find? options.target = some backend)
    (hmode : options.mode = .produceShader)
    (hresolved :
      (c.resolved builtins units options context).output.diagnostics.hasErrors = false)
    (hstopped : (c.emission builtins units options context backend).error = some cause) :
    Exit (.error ⟨cause, c.emitted builtins units options context backend⟩)
  | produced {backend : Backend} (hp : c.Prepares builtins units context)
    (hbackend : c.backends.find? options.target = some backend)
    (hmode : options.mode = .produceShader)
    (hresolved :
      (c.resolved builtins units options context).output.diagnostics.hasErrors = false)
    (hemitted : (c.emission builtins units options context backend).error = none) :
    Exit (.ok (keepProgram (c.emitted builtins units options context backend)))

end States

variable {builtins : Builtins} {units : List SourceUnit} {options : Options} {context : Context}
  {backend : Backend}

/-! What the later states share with the earlier ones. -/

@[simp]
theorem closures_analyzed : (c.analyzed builtins units context).context.closures =
    context.closures := rfl

@[simp]
theorem program_analyzed : (c.analyzed builtins units context).context.program =
    context.program := rfl

@[simp]
theorem program_prepared : (c.prepared builtins units context).context.program =
    context.program := rfl

@[simp]
theorem program_resolved : (c.resolved builtins units options context).context.program =
    context.program := rfl

theorem program_lowered : (c.lowered builtins units options context).output.program =
    (context.program.getD {}).lowerAll (.ofUnits units)
      ((c.resolved builtins units options context).context.closures.values.filterMap
        Closure.ir) := rfl

@[simp]
theorem context_emitted : (c.emitted builtins units options context backend).context =
    (c.resolved builtins units options context).context := rfl

@[simp]
theorem program_emitted : (c.emitted builtins units options context backend).output.program =
    (c.lowered builtins units options context).output.program := rfl

@[simp]
theorem context_generateChoices (symbol : Option String) (call : Call) :
    (generateChoices symbol call).context = call.context := rfl

@[simp]
theorem closures_keepProgram (call : Call) :
    (keepProgram call).context.closures = call.context.closures := rfl

@[simp]
theorem program_keepProgram (call : Call) :
    (keepProgram call).context.program = some call.output.program := rfl

@[simp]
theorem output_keepProgram (call : Call) : (keepProgram call).output = call.output := rfl

/-- Errors of analysis are still there when the closures are built. -/
theorem Prepares.analyzed (hp : c.Prepares builtins units context) :
    (c.analyzed builtins units context).output.diagnostics.hasErrors = false := by
  have hclean : ((c.analysis builtins units context).diagnostics ++ _).hasErrors = false :=
    hp.clean
  rw [Diagnostics.hasErrors, List.any_append, Bool.or_eq_false_iff] at hclean
  exact hclean.1

theorem analyze_eq : c.analyze (.ofUnits units) builtins { context } =
    match (c.analysis builtins units context).error with
    | none => .ok (c.analyzed builtins units context)
    | some cause => .error ⟨cause, c.analyzed builtins units context⟩ := rfl

/-- The lowering stages report nothing, so that the errors are checked once. -/
theorem Stock.produceShaders_eq (h : c.Stock) (backend : Backend)
    (hresolved :
      (c.resolved builtins units options context).output.diagnostics.hasErrors = false) :
    c.produceShaders backend units options (c.resolved builtins units options context) =
      match (c.emission builtins units options context backend).error with
      | none => .ok (keepProgram (c.emitted builtins units options context backend))
      | some cause => .error ⟨cause, c.emitted builtins units options context backend⟩ := by
  -- from the first check on only the program changes
  have hgate : ∀ p, gate ((c.resolved builtins units options context).setProgram p) =
      .ok ((c.resolved builtins units options context).setProgram p) :=
    fun p => gate_of_clean hresolved
  have hresume : resumeProgram (c.resolved builtins units options context) =
      (c.resolved builtins units options context).setProgram (context.program.getD {}) := rfl
  simp only [produceShaders, gate_of_clean hresolved, hresume, h.lowerStructs_eq,
    h.lowerFunctions_eq, h.insertImports_eq, h.lowerShaders_eq, setProgram_setProgram, hgate,
    ok_bind]
  show (emit backend units options.symbol (c.lowered builtins units options context) >>=
    fun call => pure (keepProgram call)) = _
  rw [emit_eq]
  show (Call.apply _ (c.emission builtins units options context backend) _ >>= _) = _
  rw [apply]
  cases (c.emission builtins units options context backend).error with
  | none => rfl
  | some cause => rfl

theorem Stock.run_eq (h : c.Stock) : c.run builtins units options { context } =
    match (c.analysis builtins units context).error with
    | some cause => .error ⟨cause, c.analyzed builtins units context⟩
    | none =>
      if (c.analyzed builtins units context).output.diagnostics.hasErrors then
        .error ⟨.aborted, c.analyzed builtins units context⟩
      else if (c.prepared builtins units context).output.diagnostics.hasErrors then
        .error ⟨.aborted, c.prepared builtins units context⟩
      else
        match c.backends.find? options.target with
        | none => (c.prepared builtins units context).abort
            (.unsupportedTarget options.target.text)
        | some backend =>
          c.produce backend units options (c.resolved builtins units options context) := by
  unfold run
  rw [analyze_eq]
  cases (c.analysis builtins units context).error with
  | some cause => rfl
  | none =>
    cases hrejected : (c.analyzed builtins units context).output.diagnostics.hasErrors with
    | true => simp only [ok_bind, gate_of_errors hrejected, if_true]; rfl
    | false =>
      simp only [ok_bind, gate_of_clean hrejected, h.buildClosures_eq, Bool.false_eq_true, if_false]
      show (gate (c.prepared builtins units context) >>= _) = _
      cases hunbuilt : (c.prepared builtins units context).output.diagnostics.hasErrors with
      | true => rw [gate_of_errors hunbuilt]; rfl
      | false => rw [gate_of_clean hunbuilt]; rfl

/-- A call ends in one of the ways listed, each under its conditions. -/
theorem Stock.run_exit (h : c.Stock) (builtins : Builtins) (units : List SourceUnit)
    (options : Options) (context : Context) :
    c.Exit builtins units options context (c.run builtins units options { context }) := by
  rw [h.run_eq]
  split
  · exact .failed ‹_›
  · rename_i herror
    split
    · exact .rejected herror ‹_›
    · rename_i hclean
      split
      · exact .unbuilt herror (Bool.not_eq_true _ ▸ hclean) ‹_›
      · rename_i hbuilt
        have hp : c.Prepares builtins units context := ⟨herror, Bool.not_eq_true _ ▸ hbuilt⟩
        split
        · exact .untargeted hp ‹_›
        · rename_i backend hbackend
          unfold produce
          split
          · rename_i hmode
            cases hresolved :
              (c.resolved builtins units options context).output.diagnostics.hasErrors with
            | true =>
              rw [produceShaders, gate_of_errors hresolved]
              exact .unresolved hp hbackend hmode hresolved
            | false =>
              rw [h.produceShaders_eq backend hresolved]
              split
              · exact .produced hp hbackend hmode hresolved ‹_›
              · exact .stopped hp hbackend hmode hresolved ‹_›
          · exact .choices hp hbackend ‹_›
          · exact .library hp hbackend ‹_›

theorem Stock.run_of_prepares (h : c.Stock) (hp : c.Prepares builtins units context) :
    c.run builtins units options { context } =
      match c.backends.find? options.target with
      | none => (c.prepared builtins units context).abort (.unsupportedTarget options.target.text)
      | some backend =>
        c.produce backend units options (c.resolved builtins units options context) := by
  simp only [h.run_eq, hp.analysis, hp.analyzed, hp.clean, Bool.false_eq_true, if_false]

/-- The conditions exclude each other. -/
theorem Stock.run_of_exit (h : c.Stock) {result : Except Halt Call}
    (hexit : c.Exit builtins units options context result) :
    c.run builtins units options { context } = result := by
  cases hexit with
  | failed herror => rw [h.run_eq, herror]
  | rejected herror hrejected => simp only [h.run_eq, herror, hrejected, if_true]
  | unbuilt herror hclean hunbuilt =>
    simp only [h.run_eq, herror, hclean, hunbuilt, Bool.false_eq_true, if_false, if_true]
  | untargeted hp hbackend => rw [h.run_of_prepares hp, hbackend]; rfl
  | library hp hbackend hmode =>
    rw [h.run_of_prepares hp, hbackend]
    simp only [produce, hmode]
    rfl
  | choices hp hbackend hmode =>
    rw [h.run_of_prepares hp, hbackend]
    simp only [produce, hmode]
  | unresolved hp hbackend hmode hunresolved =>
    rw [h.run_of_prepares hp, hbackend]
    simp only [produce, hmode, produceShaders, gate_of_errors hunresolved]
    rfl
  | stopped hp hbackend hmode hresolved hstopped =>
    rw [h.run_of_prepares hp, hbackend]
    simp only [produce, hmode, h.produceShaders_eq _ hresolved, hstopped]
  | produced hp hbackend hmode hresolved hemitted =>
    rw [h.run_of_prepares hp, hbackend]
    simp only [produce, hmode, h.produceShaders_eq _ hresolved, hemitted]

theorem Stock.run_eq_iff (h : c.Stock) {result : Except Halt Call} :
    c.run builtins units options { context } = result ↔
      c.Exit builtins units options context result :=
  ⟨fun hrun => hrun ▸ h.run_exit builtins units options context, h.run_of_exit⟩

/-! ## What a call returns -/

/-- How far a call came. -/
def reached : Except Halt Call → Call
  | .ok call => call
  | .error halt => halt.call

@[simp]
theorem reached_ok (call : Call) : reached (.ok call) = call := rfl

@[simp]
theorem reached_error (cause : CompileError) (call : Call) :
    reached (.error ⟨cause, call⟩) = call := rfl

theorem compile_snd (c : Compiler) (builtins : Builtins) (context : Context)
    (units : List SourceUnit) (options : Options) :
    (c.compile builtins context units options).2 =
      (reached (c.run builtins units options { context })).context := by
  unfold compile
  cases c.run builtins units options { context } with
  | ok call => rfl
  | error halt => obtain ⟨cause, call⟩ := halt; cases cause <;> rfl

theorem compile_of_ok {call : Call} (h : c.run builtins units options { context } = .ok call) :
    c.compile builtins context units options = (.ok call.output, call.context) := by
  rw [compile, h]

theorem compile_of_aborted {call : Call}
    (h : c.run builtins units options { context } = .error ⟨.aborted, call⟩) :
    c.compile builtins context units options = (.ok call.output, call.context) := by
  rw [compile, h]

theorem compile_fst_eq_ok_iff {output : Output} :
    (c.compile builtins context units options).1 = .ok output ↔
      (reached (c.run builtins units options { context })).output = output ∧
        ∀ halt, c.run builtins units options { context } = .error halt →
          halt.cause = .aborted := by
  unfold compile
  cases c.run builtins units options { context } with
  | ok call => simp [reached]
  | error halt => obtain ⟨cause, call⟩ := halt; cases cause <;> simp [reached]

theorem compile_fst_eq_error_iff {cause : CompileError} :
    (c.compile builtins context units options).1 = .error cause ↔
      cause ≠ .aborted ∧
        ∃ call, c.run builtins units options { context } = .error ⟨cause, call⟩ := by
  unfold compile
  cases c.run builtins units options { context } with
  | ok call => simp
  | error halt =>
    obtain ⟨stopped, call⟩ := halt
    cases stopped with
    | aborted =>
      simp only [reduceCtorEq, Except.error.injEq, Halt.mk.injEq, false_iff, not_and,
        not_exists]
      rintro hcause _ rfl
      exact absurd rfl hcause
    | collaborator stage text =>
      simp only [Except.error.injEq, Halt.mk.injEq, exists_and_left, exists_eq', and_true]
      constructor
      · rintro rfl
        exact ⟨CompileError.noConfusion, rfl⟩
      · exact And.right

end Compiler

end ShaderVariants
