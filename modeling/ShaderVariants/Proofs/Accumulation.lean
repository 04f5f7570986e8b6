import ShaderVariants.Proofs.Caching
import ShaderVariants.Proofs.Programs

/-! # The program across calls

Calls share a context, and one that completes in producing shaders hands its program on to the next.
No other call touches it. What a call leaves is either the program as it was or the one with all
that was declared and resolved lowered into it (`program_compile`), so what lowering keeps is kept
by every history of calls (`Reachable.sound`, `Later.within`). -/
namespace ShaderVariants

namespace Context
open Relation

/-- One call, of any compiler that flattens and lowers as the library does. -/
def Step (context next : Context) : Prop :=
  ∃ (c : Compiler) (builtins : Builtins) (units : List SourceUnit) (options : Options),
    c.Stock ∧ (c.compile builtins context units options).2 = next

/-- After any number of calls. -/
def Later (context later : Context) : Prop := ReflTransGen Step context later

/-- A context that calls made from a new one. -/
def Reachable (context : Context) : Prop := Later {} context

end Context

namespace Compiler
variable {c : Compiler} {builtins : Builtins} {units : List SourceUnit} {options : Options}
  {context : Context}

/-! ## What one call leaves -/

theorem named_prepared (h : context.closures.Named) :
    (c.prepared builtins units context).context.closures.Named :=
  (h.flattenAll _).resolveAll _

theorem named_resolved (h : context.closures.Named) :
    (c.resolved builtins units options context).context.closures.Named := by
  rw [closures_resolved]
  exact (named_prepared h).resolve _

theorem Stock.named_compile (h : c.Stock) (hnamed : context.closures.Named) :
    (c.compile builtins context units options).2.closures.Named := by
  have hexit := h.run_exit builtins units options context
  rw [compile_snd]
  generalize c.run builtins units options { context } = result at hexit
  cases hexit with
  | failed _ | rejected _ _ => simpa using hnamed
  | unbuilt _ _ _ | untargeted _ _ => simpa using named_prepared hnamed
  | library _ _ _ | choices _ _ _ | unresolved _ _ _ _ | stopped _ _ _ _ _ | produced _ _ _ _ _ =>
    simpa using named_resolved hnamed

theorem Stock.program_compile (h : c.Stock) :
    (c.compile builtins context units options).2.program = context.program ∨
      (c.compile builtins context units options).2.program =
        some (c.lowered builtins units options context).output.program := by
  have hexit := h.run_exit builtins units options context
  rw [compile_snd]
  generalize c.run builtins units options { context } = result at hexit
  cases hexit with
  | produced _ _ _ _ _ => right; simp
  | _ => left; simp

/-- Every representation is in the program that is lowered from the closures. -/
theorem shader?_lowered (h : context.closures.Named) {name : String} {closure : Closure}
    {ir : ShaderIR}
    (hfind : (c.resolved builtins units options context).context.closures.find? name =
      some closure) (hir : closure.ir = some ir) :
    (c.lowered builtins units options context).output.program.shader? name = some ir.lower := by
  have hnamed : (c.resolved builtins units options context).context.closures.Named :=
    named_resolved h
  generalize hclosures : (c.resolved builtins units options context).context.closures = closures
    at hfind hnamed
  rw [program_lowered, hclosures, LoweredProgram.lowerAll_eq, LoweredProgram.shader?,
    LoweredProgram.find?_foldl_put fun l s => LoweredProgram.find?_putShader s l]
  -- names are keys, so that no other representation has the name
  have hsame : ∀ s ∈ ((closures.values.filterMap Closure.ir).map ShaderIR.lower).filter
      (·.name = name), s = ir.lower := by
    intro s hs
    obtain ⟨hs, hname⟩ := List.mem_filter.mp hs
    obtain ⟨ir', hir', rfl⟩ := List.mem_map.mp hs
    obtain ⟨closure', hclosure', hsome⟩ := List.mem_filterMap.mp hir'
    obtain ⟨⟨key, _⟩, hentry, rfl⟩ := List.mem_map.mp hclosure'
    have hfind' := OrderedMap.find?_eq_some_iff.mpr hentry
    have hkey : ir'.shader = key := (hnamed _ _ hfind').2 ir' hsome
    obtain rfl : key = name := hkey.symm.trans (of_decide_eq_true hname)
    rw [hfind] at hfind'
    cases hfind'
    rw [hir] at hsome
    cases hsome
    rfl
  have hmem : ir.lower ∈ ((closures.values.filterMap Closure.ir).map ShaderIR.lower).filter
      (·.name = name) := by
    refine List.mem_filter.mpr ⟨List.mem_map_of_mem (List.mem_filterMap.mpr ⟨closure, ?_, hir⟩), ?_⟩
    · exact OrderedMap.mem_values_of_find? hfind
    · exact decide_eq_true ((hnamed _ _ hfind).2 ir hir)
  cases hlast : (((closures.values.filterMap Closure.ir).map ShaderIR.lower).filter
      (·.name = name)).getLast? with
  | none =>
    rw [List.getLast?_eq_none_iff.mp hlast] at hmem
    cases hmem
  | some s => rw [hsame s (List.mem_of_getLast? hlast), Option.some_or]

/-- Every struct is in the program as it was declared last. -/
theorem struct_lowered {name : String} {decl : StructDecl}
    (h : ((Declarations.ofUnits units).structs.filter (·.name = name)).getLast? = some decl) :
    (c.lowered builtins units options context).output.program.structs.find? (·.name = name) =
      some ⟨name, decl.fields⟩ := by
  obtain ⟨_, hname⟩ := List.mem_filter.mp (List.mem_of_getLast? h)
  have hlast : (((Declarations.ofUnits units).structs.map fun decl =>
      (⟨decl.name, decl.fields⟩ : LoweredStruct)).filter (·.name = name)).getLast? =
        some ⟨name, decl.fields⟩ := by
    rw [List.filter_map, List.getLast?_map]
    show (((Declarations.ofUnits units).structs.filter (·.name = name)).getLast?).map _ = _
    rw [h, Option.map_some, of_decide_eq_true hname]
  rw [program_lowered, LoweredProgram.lowerAll_eq]
  dsimp only
  rw [LoweredProgram.find?_foldl_put LoweredProgram.find?_putStruct, hlast, Option.some_or]

end Compiler

/-! ## What every history keeps -/

namespace Context
open Relation
variable {context next : Context}

/-- What every call keeps. -/
structure Sound (context : Context) : Prop where
  named : context.closures.Named
  distinct : ∀ p, context.program = some p → p.Distinct

theorem sound_new : Sound {} := ⟨fun _ _ hfind => (by cases hfind), fun _ hp => (by cases hp)⟩

theorem Sound.distinct_lowered (h : context.Sound) (c : Compiler) (builtins : Builtins)
    (units : List SourceUnit) (options : Options) :
    (c.lowered builtins units options context).output.program.Distinct := by
  refine LoweredProgram.Distinct.lowerAll ?_
  cases hprogram : context.program with
  | none => exact ⟨.nil, .nil, .nil⟩
  | some q => exact h.distinct q hprogram

theorem Sound.step (h : context.Sound) (hstep : Step context next) : next.Sound := by
  obtain ⟨c, builtins, units, options, hstock, rfl⟩ := hstep
  refine ⟨hstock.named_compile h.named, fun p hp => ?_⟩
  rcases hstock.program_compile with hsame | hlowered
  · rw [hsame] at hp
    exact h.distinct p hp
  · rw [hlowered] at hp
    cases hp
    exact h.distinct_lowered c builtins units options

theorem Reachable.sound (h : context.Reachable) : context.Sound := by
  induction h with
  | refl => exact sound_new
  | tail _ hstep ih => exact ih.step hstep

theorem Step.within (h : Step context next) {p : LoweredProgram} (hp : context.program = some p) :
    ∃ q, next.program = some q ∧ p.Within q := by
  obtain ⟨c, builtins, units, options, hstock, rfl⟩ := h
  rcases hstock.program_compile with hsame | hlowered
  · exact ⟨p, hsame.trans hp, .refl p⟩
  · refine ⟨_, hlowered, ?_⟩
    rw [Compiler.program_lowered, hp]
    exact LoweredProgram.within_lowerAll p _ _

theorem Later.within (h : Later context next) {p : LoweredProgram}
    (hp : context.program = some p) : ∃ q, next.program = some q ∧ p.Within q := by
  induction h with
  | refl => exact ⟨p, hp, .refl p⟩
  | tail _ hstep ih =>
    obtain ⟨q, hq, hpq⟩ := ih
    obtain ⟨r, hr, hqr⟩ := hstep.within hq
    exact ⟨r, hr, hpq.trans hqr⟩

end Context

/-- The program of a context changes only with a call that produces shaders and completes, and is
then the one that the call returns, in which every resolved closure stands as it lowers and every
declared struct as it was declared last. After any history the names of a kind are distinct, and
none is lost later. -/
theorem Compiler.program_accumulates {c : Compiler} (h : c.Stock) {context : Context}
    (hreachable : context.Reachable) (builtins : Builtins) (units : List SourceUnit)
    (options : Options) :
    let run := c.run builtins units options { context }
    let result := (c.compile builtins context units options).1
    let after := (c.compile builtins context units options).2
    ((options.mode ≠ .produceShader ∨ ∃ halt, run = .error halt) →
      after.program = context.program) ∧
    (∀ call, options.mode = .produceShader → run = .ok call →
      result = .ok call.output ∧ after.program = some call.output.program ∧
      (∀ name closure ir, after.closures.find? name = some closure → closure.ir = some ir →
        call.output.program.shader? name = some ir.lower) ∧
      ∀ name decl, ((Declarations.ofUnits units).structs.filter (·.name = name)).getLast? =
        some decl →
        call.output.program.structs.find? (·.name = name) = some ⟨name, decl.fields⟩) ∧
    (∀ p, context.program = some p → p.Distinct) ∧
    ∀ later p, context.Later later → context.program = some p →
      ∃ q, later.program = some q ∧ p.Within q := by
  intro run result after
  have hsound := hreachable.sound
  refine ⟨?_, ?_, hsound.distinct, fun later p hlater hp => hlater.within hp⟩
  · intro hfails
    have hexit : c.Exit builtins units options context run :=
      h.run_exit builtins units options context
    show (c.compile builtins context units options).2.program = _
    rw [compile_snd]
    show (reached run).context.program = _
    generalize run = result at hexit hfails
    cases hexit with
    | produced _ _ hmode _ _ =>
      rcases hfails with hother | ⟨halt, hhalt⟩
      · exact absurd hmode hother
      · cases hhalt
    | _ => simp
  · intro call hmode hrun
    have hcompile : c.compile builtins context units options = (.ok call.output, call.context) :=
      compile_of_ok hrun
    have hafter : after = call.context := congrArg Prod.snd hcompile
    cases h.run_eq_iff.mp hrun with
    | choices _ _ hother => rw [hmode] at hother; cases hother
    | produced _ _ _ _ _ =>
      rw [hafter, output_keepProgram, program_emitted, closures_keepProgram, context_emitted]
      exact ⟨congrArg Prod.fst hcompile, program_keepProgram _,
        fun name closure ir => shader?_lowered hsound.named, fun name decl => struct_lowered⟩

/-- A tint whose layer is found through two references, one round after the other. -/
def overlayTint : Component where
  name := "tint"
  dataType := "vec4"
  aliases := ["tint"]
  constrained := .ofList ["fs"]
  implementations :=
    [{ worlds := .ofList ["fs"], exported := .ofList ["fs"], body := .expr (.literal "1" {})
       attributes := .ofList [("layer", "%tint.depth"), ("depth", "%tint.base"), ("base", "2")] }]

def overlaySymbols : SymbolTable :=
  (({} : SymbolTable).addPipeline
    { name := "screen", worlds := .ofList [("fs", { name := "fs" })] }).addShader
    { name := "overlay", pipeline := "screen", components := .ofList [overlayTint] }

/-- Writes the names of shaders. -/
def overlayBackend : Backend where
  generate _ shader := { outcome := .ok shader.name }

/-- Finds the same symbols whatever is declared. -/
def overlayCompiler : Compiler where
  frontend :=
    { analyze := fun _ _ _ => { value := overlaySymbols }
      closure := Frontend.stockClosure }
  generator := .stock
  backends := .ofList [(.glsl, overlayBackend)]

theorem stock_overlayCompiler : overlayCompiler.Stock := ⟨rfl, rfl⟩

def overlayUnits : List SourceUnit :=
  [{ file := "overlay"
     declarations :=
       { shaders := [{ name := "overlay" }]
         structs := [{ name := "Light", fields := [("color", "vec3")] }] } }]

/-- Declares the light again, and twice. -/
def lightUnits : List SourceUnit :=
  [{ file := "light"
     declarations :=
       { structs := [{ name := "Light", fields := [("power", "float")] },
           { name := "Light", fields := [("power", "vec2")] }] } }]

namespace Compiler

theorem run_overlayUnits : overlayCompiler.run ∅ overlayUnits {} { context := {} } =
    .ok (keepProgram (overlayCompiler.emitted ∅ overlayUnits {} {} overlayBackend)) := by
  refine stock_overlayCompiler.run_of_exit (.produced ⟨rfl, by decide +kernel⟩ rfl rfl ?_ ?_)
  · simp only [resolved, resolveVariants, Closure.resolve, Closure.variant_eq_round]
    decide +kernel
  · rw [← Option.isNone_iff_eq_none]
    simp only [emission, lowered, resolved, resolveVariants, Closure.resolve,
      Closure.variant_eq_round]
    decide +kernel

/-- The context that a first call leaves. -/
def overlayContext : Context := (overlayCompiler.compile ∅ {} overlayUnits {}).2

theorem reachable_overlayContext : overlayContext.Reachable :=
  .single ⟨overlayCompiler, ∅, overlayUnits, {}, stock_overlayCompiler, rfl⟩

theorem overlayContext_eq : overlayContext =
    (keepProgram (overlayCompiler.emitted ∅ overlayUnits {} {} overlayBackend)).context :=
  congrArg Prod.snd (compile_of_ok run_overlayUnits)

theorem run_lightUnits : overlayCompiler.run ∅ lightUnits {} { context := overlayContext } =
    .ok (keepProgram (overlayCompiler.emitted ∅ lightUnits {} overlayContext overlayBackend)) := by
  rw [overlayContext_eq]
  refine stock_overlayCompiler.run_of_exit (.produced ⟨rfl, ?_⟩ rfl rfl ?_ ?_)
  · simp only [emitted, lowered, resolved, resolveVariants, Closure.resolve,
      Closure.variant_eq_round]
    decide +kernel
  · simp only [emitted, lowered, resolved, resolveVariants, Closure.resolve,
      Closure.variant_eq_round]
    decide +kernel
  · rw [← Option.isNone_iff_eq_none]
    simp only [emission, emitted, lowered, resolved, resolveVariants, Closure.resolve,
      Closure.variant_eq_round]
    decide +kernel

/-- A second call completes on what the first one left. The light is in the program once, with the
fields it was given last, and the shader of the first call is still there. -/
theorem program_accumulates_overlayCompiler :
    ∃ p call, overlayContext.program = some p ∧ p.Distinct ∧
      overlayCompiler.run ∅ lightUnits {} { context := overlayContext } = .ok call ∧
      (overlayCompiler.compile ∅ overlayContext lightUnits {}).2.program =
        some call.output.program ∧
      p.Within call.output.program ∧
      p.structs = [⟨"Light", [("color", "vec3")]⟩] ∧
      call.output.program.structs.find? (·.name = "Light") =
        some ⟨"Light", [("power", "vec2")]⟩ := by
  obtain ⟨_, hcompletes, hdistinct, hlater⟩ :=
    program_accumulates stock_overlayCompiler reachable_overlayContext ∅ lightUnits {}
  obtain ⟨_, hprogram, _, hstructs⟩ := hcompletes _ rfl run_lightUnits
  have hp : overlayContext.program =
      some (overlayCompiler.lowered ∅ overlayUnits {} {}).output.program := by
    rw [overlayContext_eq, program_keepProgram, program_emitted]
  obtain ⟨q, hq, hwithin⟩ := hlater _ _
    (.single ⟨overlayCompiler, ∅, lightUnits, {}, stock_overlayCompiler, rfl⟩) hp
  obtain rfl := Option.some.inj (hprogram.symm.trans hq)
  have hfirst : (overlayCompiler.lowered ∅ overlayUnits {} {}).output.program.structs =
      [⟨"Light", [("color", "vec3")]⟩] :=
    congrArg LoweredProgram.structs (LoweredProgram.lowerAll_eq {} (.ofUnits overlayUnits) _)
  exact ⟨_, _, hp, hdistinct _ hp, run_lightUnits, hprogram, hwithin, hfirst,
    hstructs "Light" { name := "Light", fields := [("power", "vec2")] } (by decide +kernel)⟩

end Compiler

end ShaderVariants
