import ShaderVariants.Catalog
import ShaderVariants.Compile.Collaborator
import ShaderVariants.Indirection
import ShaderVariants.Schedule.Text
import ShaderVariants.Variant.Resolve
/-!
# Compile calls

A call runs in stages over a context that outlives it: analysis, closures, attribute references,
backend, schedule and variants, and then what the mode asks for. Errors reported so far are checked
between the stages. A stage that stops the call hands on the state at which it stopped, so that
nothing done before is lost.
-/
namespace ShaderVariants

/-- What calls share. A closure that is resolved stays so, and the program grows. -/
structure Context where
  symbols : SymbolTable := {}
  closures : Closures := ∅
  program : Option LoweredProgram := none

/-- Forget the closures, and with them what was resolved. -/
def Context.invalidate (c : Context) : Context := { c with closures := ∅ }

structure Output where
  /-- Generated text by shader. -/
  sources : OrderedMap String String := ∅
  catalog : Catalog := {}
  program : LoweredProgram := {}
  diagnostics : Diagnostics := []

/-- A call under way. -/
structure Call where
  context : Context
  output : Output := {}

/-- Why a call stopped, and how far it came. -/
structure Halt where
  cause : CompileError
  call : Call

abbrev Stage := Call → Except Halt Call

namespace Call

def report (call : Call) (diagnostics : Diagnostics) : Call :=
  { call with output.diagnostics := call.output.diagnostics ++ diagnostics }

def setProgram (call : Call) (program : LoweredProgram) : Call :=
  { call with output.program := program }

/-- Take over what a collaborator changed and reported, also if it stopped. -/
def apply {α : Type} (call : Call) (change : Change α) (put : Call → α → Call) :
    Except Halt Call :=
  let call := put (call.report change.diagnostics) change.value
  match change.error with
  | none => .ok call
  | some cause => .error ⟨cause, call⟩

/-- Take over what a collaborator answered, unless it stopped. -/
def take {α : Type} (call : Call) (answer : Answer α) (put : Call → α → Call) :
    Except Halt Call :=
  let call := call.report answer.diagnostics
  match answer.outcome with
  | .ok a => .ok (put call a)
  | .error cause => .error ⟨cause, call⟩

/-- Report an error and stop. -/
def abort (call : Call) (problem : Problem) : Except Halt Call :=
  .error ⟨.aborted, call.report [.error {} problem]⟩

/-- Stop if an error has been reported. -/
def gate : Stage := fun call =>
  if call.output.diagnostics.hasErrors then .error ⟨.aborted, call⟩ else .ok call

end Call

namespace Compiler
open Call

def analyze (c : Compiler) (declarations : Declarations) (builtins : Builtins) : Stage :=
  fun call => call.apply (c.frontend.analyze declarations builtins call.context.symbols)
    fun call symbols => { call with context.symbols := symbols }

/-- Build the closure of one shader, unless it is a module or has one. -/
def buildClosure (c : Compiler) (call : Call) (shader : Shader) : Except Halt Call :=
  if shader.isModule || call.context.closures.contains shader.name then .ok call
  else call.take (c.frontend.closure call.context.symbols shader) fun call closure =>
    closure.elim call fun closure =>
      { call with context.closures := call.context.closures.insert shader.name closure }

def buildClosures (c : Compiler) : Stage := fun call =>
  call.context.symbols.dependenceOrder.foldlM c.buildClosure call

def resolveIndirections (call : Call) : Call :=
  { call with
    context.closures := (Indirection.resolveAll call.context.symbols call.context.closures).1 }

/-- The schedule of the options, with complaints about its text. -/
def readSchedule (options : Options) : Schedule × Diagnostics :=
  if options.hasSchedule then Schedule.parse options.schedule options.scheduleFile else ({}, [])

/-- Resolve the closures that are not resolved yet. -/
def resolveVariants (schedule : Schedule) (call : Call) : Call :=
  let resolved := call.context.closures.map (·.resolve schedule)
  { call.report (resolved.values.flatMap Prod.snd) with
    context.closures := resolved.map Prod.fst }

def lowerStructs (c : Compiler) (structs : List StructDecl) : Stage := fun call =>
  structs.foldlM
    (fun call decl =>
      call.apply (c.generator.lowerStruct decl call.output.program) Call.setProgram) call

def lowerFunctions (c : Compiler) (functions : List FunctionDecl) : Stage := fun call =>
  functions.foldlM
    (fun call decl =>
      call.apply (c.generator.lowerFunction decl call.context.symbols call.output.program)
        Call.setProgram) call

def insertImports (c : Compiler) : Stage := fun call =>
  call.context.closures.entries.foldlM
    (fun call (name, closure) =>
      match closure.ir with
      | none => .ok call
      | some ir => call.apply (c.generator.insertImports ir) fun call ir =>
          { call with
            context.closures := call.context.closures.modify name fun closure =>
              { closure with ir := some ir } }) call

def lowerShaders (c : Compiler) : Stage := fun call =>
  (call.context.closures.values.filterMap Closure.ir).foldlM
    (fun call ir =>
      call.apply (c.generator.lowerShader ir call.output.program) Call.setProgram) call

def emit (backend : Backend) (units : List SourceUnit) (symbol : Option String) : Stage :=
  fun call =>
    (call.output.program.shaders.filter fun s => isRequested units symbol s.name).foldlM
      (fun call shader =>
        call.take (backend.generate call.context.symbols shader) fun call source =>
          { call with output.sources := call.output.sources.insert shader.name source }) call

/-- Go on from the program of earlier calls, if there is one. -/
def resumeProgram (call : Call) : Call :=
  { call with output.program := call.context.program.getD call.output.program }

def keepProgram (call : Call) : Call :=
  { call with context.program := some call.output.program }

/-- Lower everything and generate the requested sources. -/
def produceShaders (c : Compiler) (backend : Backend) (units : List SourceUnit)
    (options : Options) : Stage := fun call => do
  let declarations := Declarations.ofUnits units
  let call ← gate call
  let call ← c.lowerStructs declarations.structs (resumeProgram call)
  let call ← c.lowerFunctions declarations.functions call
  let call ← c.insertImports call
  let call ← gate call
  let call ← c.lowerShaders call
  let call ← gate call
  let call ← emit backend units options.symbol call
  return keepProgram call

def generateChoices (symbol : Option String) (call : Call) : Call :=
  { call with output.catalog := .ofClosures call.context.closures.values symbol }

/-- What the mode asks for. -/
def produce (c : Compiler) (backend : Backend) (units : List SourceUnit) (options : Options) :
    Stage := fun call =>
  match options.mode with
  | .produceShader => c.produceShaders backend units options call
  | .generateChoice => .ok (generateChoices options.symbol call)
  | .produceLibrary => call.abort (.unsupportedMode options.mode.text)

def run (c : Compiler) (builtins : Builtins) (units : List SourceUnit) (options : Options) :
    Stage := fun call => do
  let call ← c.analyze (.ofUnits units) builtins call
  let call ← gate call
  let call ← c.buildClosures call
  let call ← gate (resolveIndirections call)
  match c.backends.find? options.target with
  | none => call.abort (.unsupportedTarget options.target.text)
  | some backend =>
    let (schedule, complaints) := readSchedule options
    c.produce backend units options (resolveVariants schedule (call.report complaints))

/-- Run one call. Only a failure of a collaborator is an error; a call that was aborted returns
what it had. The context is as the call left it. -/
def compile (c : Compiler) (builtins : Builtins) (context : Context) (units : List SourceUnit)
    (options : Options) : Except CompileError Output × Context :=
  match c.run builtins units options { context } with
  | .ok call => (.ok call.output, call.context)
  | .error ⟨.aborted, call⟩ => (.ok call.output, call.context)
  | .error ⟨cause, call⟩ => (.error cause, call.context)

end Compiler

end ShaderVariants
