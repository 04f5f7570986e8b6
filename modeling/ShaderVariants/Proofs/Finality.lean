import ShaderVariants.Proofs.Accumulation

/-! # Resolved shaders are final

A call analyses anew, flattens what is missing, rewrites attributes in the closures it finds, and
resolves what has no representation, and it can stop at any of these. No way of ending touches a
representation that is there (`Step.ir?`), so only forgetting the closures gets rid of it. As the
program is made from the representations, a shader that was resolved once is lowered the same way by
every call that completes (`resolved_final`). -/
namespace ShaderVariants

namespace Context
open Relation
variable {context next later : Context}

/-- The representation of a shader, once it is resolved. -/
def ir? (context : Context) (name : String) : Option ShaderIR :=
  (context.closures.find? name).bind Closure.ir

/-- What can be done with a context while its closures are kept: call a compiler with it, or change
the symbols. -/
inductive Use : Context → Context → Prop
  | call {context next : Context} : Step context next → Use context next
  | symbols (context : Context) (symbols : SymbolTable) : Use context { context with symbols }

/-- A context that has been used since it was new. Its closures may have been forgotten, any number
of times. -/
def Session (context : Context) : Prop :=
  ReflTransGen (fun a b => Use a b ∨ b = a.invalidate) {} context

/-! ## What a session keeps -/

theorem Sound.use (h : context.Sound) (huse : Use context next) : next.Sound := by
  cases huse with
  | call hstep => exact h.step hstep
  | symbols symbols => exact ⟨h.named, h.distinct⟩

theorem Sound.invalidate (h : context.Sound) : context.invalidate.Sound :=
  ⟨sound_new.named, h.distinct⟩

theorem Session.sound (h : context.Session) : context.Sound := by
  induction h with
  | refl => exact sound_new
  | tail _ hmove ih =>
    rcases hmove with huse | rfl
    · exact ih.use huse
    · exact ih.invalidate

end Context

/-! ## What a call does to a representation -/

namespace Compiler
variable {c : Compiler} {builtins : Builtins} {units : List SourceUnit} {options : Options}
  {context : Context} {name : String} {ir : ShaderIR}

theorem ir?_prepared (h : context.ir? name = some ir) :
    (c.prepared builtins units context).context.ir? name = some ir :=
  (c.ir_prepared builtins units context name).trans h

theorem ir?_resolved (h : context.ir? name = some ir) :
    (c.resolved builtins units options context).context.ir? name = some ir := by
  have hprepared : (c.prepared builtins units context).context.ir? name = some ir := ir?_prepared h
  obtain ⟨closure, hfind, hir⟩ := Option.bind_eq_some_iff.mp hprepared
  rw [Context.ir?, closures_resolved, OrderedMap.find?_map, hfind, Option.map_some,
    Option.bind_some, Closure.resolve_of_ir hir, hir]

@[simp]
theorem ir?_keepProgram (call : Call) :
    (keepProgram call).context.ir? name = call.context.ir? name := rfl

end Compiler

namespace Context
open Relation
variable {context next later : Context} {name : String} {ir : ShaderIR}

/-- However a call ends, it leaves a representation as it was. -/
theorem Step.ir? (h : Step context next) (hir : context.ir? name = some ir) :
    next.ir? name = some ir := by
  obtain ⟨c, builtins, units, options, hstock, rfl⟩ := h
  have hexit := hstock.run_exit builtins units options context
  rw [Compiler.compile_snd]
  generalize c.run builtins units options { context } = result at hexit
  cases hexit with
  | failed _ | rejected _ _ => exact hir
  | unbuilt _ _ _ | untargeted _ _ => simpa using Compiler.ir?_prepared hir
  | library _ _ _ | choices _ _ _ | unresolved _ _ _ _ | stopped _ _ _ _ _ | produced _ _ _ _ _ =>
    simpa using Compiler.ir?_resolved hir

theorem ir?_of_uses (h : ReflTransGen Use context later) (hir : context.ir? name = some ir) :
    later.ir? name = some ir := by
  induction h with
  | refl => exact hir
  | tail _ huse ih =>
    cases huse with
    | call hstep => exact hstep.ir? ih
    | symbols symbols => exact ih

theorem sound_of_uses (h : ReflTransGen Use context later) (hsound : context.Sound) :
    later.Sound := by
  induction h with
  | refl => exact hsound
  | tail _ huse ih => exact ih.use huse

/-- Once a shader of a context is resolved it keeps its representation, whatever calls are made and
however they end, until the closures are forgotten. Every later call that produces shaders and
completes has in its program one shader of the name, as the representation lowers. -/
theorem resolved_final (hsession : context.Session) (hlater : ReflTransGen Use context later)
    (hir : context.ir? name = some ir) :
    later.ir? name = some ir ∧
    ∀ (c : Compiler) (builtins : Builtins) (units : List SourceUnit) (options : Options)
      (call : Call), c.Stock → options.mode = .produceShader →
      c.run builtins units options { context := later } = .ok call →
      (c.compile builtins later units options).1 = .ok call.output ∧
        call.output.program.shaders.filter (·.name = name) = [ir.lower] := by
  have hkept := ir?_of_uses hlater hir
  have hsound := sound_of_uses hlater hsession.sound
  refine ⟨hkept, fun c builtins units options call hstock hmode hrun => ?_⟩
  refine ⟨congrArg Prod.fst (Compiler.compile_of_ok hrun), ?_⟩
  cases hstock.run_eq_iff.mp hrun with
  | choices _ _ hother => rw [hmode] at hother; cases hother
  | produced _ _ _ _ _ =>
    obtain ⟨closure, hfind, hir⟩ := Option.bind_eq_some_iff.mp (Compiler.ir?_resolved hkept)
    exact (hsound.distinct_lowered c builtins units options).filter_shaders
      (Compiler.shader?_lowered hsound.named hfind hir)

/-- Loses all symbols and then fails. -/
def brokenCompiler : Compiler :=
  { overlayCompiler with
    frontend :=
      { overlayCompiler.frontend with
        analyze := fun _ _ _ => { value := {}, error := some (.collaborator "analysis" "lost") } } }

theorem compile_brokenCompiler (context : Context) : brokenCompiler.compile ∅ context [] {} =
    (.error (.collaborator "analysis" "lost"), { context with symbols := {} }) := rfl

/-- The overlay compiler finds its symbols again. -/
theorem run_without_symbols (context : Context) (units : List SourceUnit) :
    overlayCompiler.run ∅ units {} { context := { context with symbols := {} } } =
      overlayCompiler.run ∅ units {} { context } := rfl

theorem session_overlayContext : Compiler.overlayContext.Session :=
  .single (.inl (.call ⟨overlayCompiler, ∅, overlayUnits, {}, stock_overlayCompiler, rfl⟩))

theorem isSome_ir?_overlayContext : (Compiler.overlayContext.ir? "overlay").isSome = true := by
  rw [Compiler.overlayContext_eq]
  simp only [Compiler.emitted, Compiler.lowered, Compiler.resolved, Compiler.resolveVariants,
    Closure.resolve, Closure.variant_eq_round]
  decide +kernel

/-- A call resolves the shader, a second one loses the symbols and fails, and a third one completes
with the representation of the first. -/
theorem resolved_final_overlayContext :
    ∃ ir later call, Compiler.overlayContext.ir? "overlay" = some ir ∧
      brokenCompiler.compile ∅ Compiler.overlayContext [] {} =
        (.error (.collaborator "analysis" "lost"), later) ∧
      later.ir? "overlay" = some ir ∧
      overlayCompiler.run ∅ lightUnits {} { context := later } = .ok call ∧
      call.output.program.shaders.filter (·.name = "overlay") = [ir.lower] := by
  obtain ⟨ir, hir⟩ := Option.isSome_iff_exists.mp isSome_ir?_overlayContext
  have hbroken := compile_brokenCompiler Compiler.overlayContext
  have huse := ReflTransGen.single (Use.call
    ⟨brokenCompiler, ∅, [], {}, ⟨rfl, rfl⟩, congrArg Prod.snd hbroken⟩)
  obtain ⟨hkept, hlowers⟩ := resolved_final session_overlayContext huse hir
  have hrun := (run_without_symbols Compiler.overlayContext lightUnits).trans
    Compiler.run_lightUnits
  obtain ⟨_, hshader⟩ := hlowers overlayCompiler ∅ lightUnits {} _ stock_overlayCompiler rfl hrun
  exact ⟨ir, _, _, hir, hbroken, hkept, hrun, hshader⟩

end Context

end ShaderVariants
