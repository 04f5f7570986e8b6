import ShaderVariants.Proofs.Bare
import ShaderVariants.Proofs.Outputs

/-! # Resolving again after a failure

A closure that did not resolve is resolved again, under another schedule, as the first one left it.
Choices of the first schedule leave nothing that a second run reads. Its attributes stay in the
implementations, under those of the second schedule (`Closure.placed_left`). They can make an output
of a slot that was none, and they show in the definitions. `retry_eq_iff` says when a second run
gives what it would have given on the closure as it was. -/
namespace ShaderVariants

/-! ## What stays -/

namespace Component

theorem core_attach (c : Component) (l : List (String × String)) : (c.attach l).core = c.core := by
  simp [core, attach, Function.comp_def]

end Component

theorem Components.core_attach (m : Components) (added : String → List (String × String)) :
    (m.attach added).map Component.core = m.map Component.core := by
  rw [attach, toOrderedMap_reviseAll, OrderedMap.map_map]
  exact OrderedMap.map_congr fun e _ => e.2.core_attach _

namespace Closure

/-- The closure placed with attributes added to its components. -/
def placedWith (closure : Closure) (added : String → List (String × String))
    (asked : List (String × Nat)) : ShaderIR :=
  .ofComponents closure.name closure.pipeline (closure.components.attach added) asked

variable {closure : Closure} {first second : Schedule} {c : Component}

theorem core_left (closure : Closure) (schedule : Schedule) :
    (closure.variant schedule).closure.components.map Component.core =
      closure.components.map Component.core := by
  rw [closure_variant]
  exact Choosing.core_run closure schedule

theorem run_left (closure : Closure) (first second : Schedule) :
    (Choosing.run (closure.variant first).closure second).asked =
        (Choosing.run closure second).asked ∧
      (Choosing.run (closure.variant first).closure second).diagnostics =
        (Choosing.run closure second).diagnostics :=
  Choosing.run_of_core (by rw [closure_variant]) (core_left closure first) second

theorem contains_left (closure : Closure) (schedule : Schedule) :
    (closure.variant schedule).closure.components.contains = closure.components.contains := by
  rw [closure_variant]
  exact Choosing.contains_run closure schedule

theorem unpinned_left (closure : Closure) (schedule : Schedule) :
    (closure.variant schedule).closure.components.unpinned =
      (closure.attributed schedule.attributes).unpinned := by
  rw [closure_variant]
  exact unpinned_run closure schedule

theorem added_left (closure : Closure) (schedule : Schedule)
    (attributes : OrderedMap String Attributes) :
    (closure.variant schedule).closure.added attributes = closure.added attributes := by
  funext name
  rw [added, Choosing.aliasIndex_of_core (core_left closure schedule), added]

/-- A second run places the closure with the attributes of both schedules. -/
theorem placed_left (closure : Closure) (first second : Schedule) :
    (closure.variant first).closure.placed second = closure.placedWith
      (fun name => closure.added first.attributes name ++ closure.added second.attributes name)
      (Choosing.run closure second).asked := by
  have hname : (closure.variant first).closure.name = closure.name := by rw [closure_variant]
  have hpipeline : (closure.variant first).closure.pipeline = closure.pipeline := by
    rw [closure_variant]
  have hboth : ((closure.variant first).closure.attributed second.attributes).unpinned =
      (closure.components.attach fun name =>
        closure.added first.attributes name ++ closure.added second.attributes name).unpinned := by
    rw [attributed, added_left, Components.unpinned_attach, unpinned_left,
      ← Components.unpinned_attach, attributed, Components.attach_attach]
  rw [placed_eq, (run_left closure first second).1, hname, hpipeline,
    ← ShaderIR.ofComponents_unpinned, hboth, ShaderIR.ofComponents_unpinned]
  rfl

/-! ## Two placements of one closure -/

theorem bare_placedWith (closure : Closure) (f g : String → List (String × String))
    (asked : List (String × Nat)) :
    (closure.placedWith f asked).bare = (closure.placedWith g asked).bare := by
  refine ShaderIR.bare_ofComponents _ _ ?_ asked
  rw [Components.core_attach, Components.core_attach]

/-- A survivor has the attributes of the implementation that holds its slot, and those added. It is
an entry if its slot is an output. -/
theorem survivor_placedWith (hc : c ∈ closure.components.values)
    {f : String → List (String × String)} {asked : List (String × Nat)} {d : Definition}
    (hd : d ∈ (closure.placedWith f asked).definitions)
    (hs : (closure.placedWith f asked).isSurvivor d = true) (hcomponent : d.component = c.name) :
    d.isEntry = (c.attach (f c.name)).isOutput closure.pipeline d.world ∧
      ∃ i, (c.chosen? asked d.world).map Prod.fst = some i ∧
        d.attributes = i.attributes.insertAll (f c.name) := by
  have hmem : c.attach (f c.name) ∈ (closure.components.attach f).values :=
    Components.mem_values_attach.mpr ⟨c, hc, rfl⟩
  obtain ⟨start, hplaced⟩ := ShaderIR.placedAt_ofComponents closure.name closure.pipeline hmem
  obtain ⟨e, he, hdef⟩ := (hplaced asked).eq_winner (ShaderIR.wellFormed_ofComponents _ _ _ _) hd
    hs hcomponent
  rw [ShaderIR.pipeline_ofComponents] at hdef
  rw [Component.winner?_attach] at he
  obtain ⟨⟨⟨i, k⟩, id⟩, hwinner, rfl⟩ := Option.map_eq_some_iff.mp he
  refine ⟨congrArg Definition.isEntry hdef, i, ?_, congrArg Definition.attributes hdef⟩
  rw [← c.map_fst_winner? asked start, hwinner]
  rfl

theorem declared_placedWith {f : String → List (String × String)} {asked : List (String × Nat)}
    {d : Definition}
    (hs : (closure.placedWith f asked).isSurvivor d = true) :
    ∃ c ∈ closure.components.values, c.name = d.component := by
  obtain ⟨c', hc', hname⟩ := ShaderIR.declared_of_survivor (ShaderIR.isSurvivor_iff.mp hs)
  obtain ⟨c, hc, rfl⟩ := Components.mem_values_attach.mp hc'
  exact ⟨c, hc, hname⟩

/-- Outputs of the first placement that are outputs of the second are roots of both. -/
theorem roots_subset {f g : String → List (String × String)}
    (hout : ∀ c ∈ closure.components.values, ∀ w,
      (c.attach (f c.name)).isOutput closure.pipeline w = true →
      (c.attach (g c.name)).isOutput closure.pipeline w = true) (asked : List (String × Nat)) :
    (closure.placedWith f asked).roots ⊆ (closure.placedWith g asked).roots := by
  intro id hid
  obtain ⟨d, hd, rfl⟩ := List.mem_map.mp hid
  obtain ⟨hmem, hpass⟩ := List.mem_filter.mp hd
  obtain ⟨hentry, hs⟩ := Bool.and_eq_true_iff.mp hpass
  have hbare := closure.bare_placedWith f g asked
  obtain ⟨d', hmem', hd'⟩ := ShaderIR.exists_of_bare hbare hmem
  have hs' := (ShaderIR.isSurvivor_of_bare hbare hd').trans hs
  obtain ⟨c, hc, hname⟩ := declared_placedWith hs
  obtain ⟨hcomponent, hworld, hsame, _⟩ := Definition.fields_of_bare hd'
  have hout := hout c hc d.world ((survivor_placedWith hc hmem hs hname.symm).1.symm.trans hentry)
  have hentry' := (survivor_placedWith hc hmem' hs' (hcomponent.trans hname.symm)).1
  rw [hworld, hout] at hentry'
  rw [← hsame]
  exact List.mem_map_of_mem (List.mem_filter.mpr ⟨hmem', by rw [hentry', hs']; rfl⟩)

/-! ## When a second run shows nothing of the first -/

/-- Where the first schedule asks for outputs of a component, in an abstract world that one of its
implementations may occupy, there is an output under the second one anyway. -/
def OutputsCovered (closure : Closure) (first second : Schedule) : Prop :=
  ∀ c ∈ closure.components.values, closure.Pins first c.name →
    ∀ i ∈ c.implementations, ∀ w, i.worlds.contains w = true →
      closure.pipeline.isAbstract w = true →
        (c.attach (closure.added second.attributes c.name)).isOutput closure.pipeline w = true

/-- In every slot of a variant, adding the attributes of the first schedule under those of the
second makes no difference to the implementation that holds it. -/
def AttributesCovered (closure : Closure) (first second : Schedule) (ir : ShaderIR) : Prop :=
  ∀ c ∈ closure.components.values, ∀ d ∈ ir.definitions, d.component = c.name →
    ∀ i, c.holder? (closure.selections second c) d.world = some i →
      i.attributes.insertAll
          (closure.added first.attributes c.name ++ closure.added second.attributes c.name) =
        i.attributes.insertAll (closure.added second.attributes c.name)

theorem outputsCovered_iff : closure.OutputsCovered first second ↔
    ∀ c ∈ closure.components.values, ∀ w,
      (c.attach (closure.added first.attributes c.name ++
        closure.added second.attributes c.name)).isOutput closure.pipeline w = true →
      (c.attach (closure.added second.attributes c.name)).isOutput closure.pipeline w = true := by
  constructor
  · intro hcovered c hc w hout
    obtain ⟨i, hi, hw, hrequired⟩ := Component.isOutput_attach.mp hout
    rcases hrequired with hexported | ⟨habstract, hpinned | hadded | hworld⟩
    · exact Component.isOutput_attach.mpr ⟨i, hi, hw, Or.inl hexported⟩
    · exact Component.isOutput_attach.mpr ⟨i, hi, hw, Or.inr ⟨habstract, Or.inl hpinned⟩⟩
    · rw [List.map_append, List.mem_append, mem_added_iff] at hadded
      rcases hadded with hfirst | hsecond
      · exact hcovered c hc hfirst i hi w hw habstract
      · exact Component.isOutput_attach.mpr
          ⟨i, hi, hw, Or.inr ⟨habstract, Or.inr (Or.inl hsecond)⟩⟩
    · exact Component.isOutput_attach.mpr
        ⟨i, hi, hw, Or.inr ⟨habstract, Or.inr (Or.inr hworld)⟩⟩
  · intro hkeep c hc hpins i hi w hw habstract
    refine hkeep c hc w (Component.isOutput_attach.mpr ⟨i, hi, hw, Or.inr ⟨habstract, ?_⟩⟩)
    rw [List.map_append, List.mem_append, mem_added_iff]
    exact Or.inr (Or.inl (Or.inl hpins))

/-- What the second schedule makes an output stays one with more attributes. -/
theorem isOutput_more (closure : Closure) (first second : Schedule) (c : Component) (w : String)
    (hout : (c.attach (closure.added second.attributes c.name)).isOutput closure.pipeline w =
      true) :
    (c.attach (closure.added first.attributes c.name ++
      closure.added second.attributes c.name)).isOutput closure.pipeline w = true := by
  obtain ⟨i, hi, hw, hrequired⟩ := Component.isOutput_attach.mp hout
  refine Component.isOutput_attach.mpr ⟨i, hi, hw, hrequired.imp_right fun h => ⟨h.1, ?_⟩⟩
  refine h.2.imp_right (Or.imp_left fun hmem => ?_)
  rw [List.map_append]
  exact List.mem_append_right _ hmem

/-- Both runs resolve placements of the closure, to complaints about the same components. -/
theorem resolve_left (hcovered : closure.OutputsCovered first second) :
    (((closure.variant first).closure.placed second).resolve closure.components.contains).map
        ShaderIR.bare =
      ((closure.placed second).resolve closure.components.contains).map ShaderIR.bare := by
  have hw := closure.wellFormed_placed second
  have hw' := (closure.variant first).closure.wellFormed_placed second
  have hu := closure.unlinked_placed second
  have hu' := (closure.variant first).closure.unlinked_placed second
  rw [placed_left] at hw' hu' ⊢
  rw [placed_eq] at hw hu ⊢
  refine ShaderIR.resolve_congr hw' hw hu' hu (closure.bare_placedWith _ _ _)
    (hw'.roots_eq hw ?_ ?_) _
  · exact roots_subset (outputsCovered_iff.mp hcovered) _
  · exact roots_subset (f := closure.added second.attributes)
      (fun c _ w => closure.isOutput_more first second c w) _

theorem retry_congr (hcovered : closure.OutputsCovered first second) :
    let fresh := closure.variant second
    let retry := (closure.variant first).closure.variant second
    retry.diagnostics = fresh.diagnostics ∧
      retry.ir.map ShaderIR.bare = fresh.ir.map ShaderIR.bare := by
  intro fresh retry
  have hresolve := resolve_left hcovered
  have hdiagnostics := (closure.run_left first second).2
  have hcontains := closure.contains_left first
  generalize hfresh : (closure.placed second).resolve closure.components.contains = r at hresolve
  generalize hretry : ((closure.variant first).closure.placed second).resolve
    closure.components.contains = r' at hresolve
  rw [← hcontains] at hretry
  cases r with
  | ok ir =>
    cases r' with
    | error reports' => cases hresolve
    | ok ir' =>
      obtain ⟨hir, hd⟩ := variant_of_ok hfresh
      obtain ⟨hir', hd'⟩ := variant_of_ok hretry
      refine ⟨hd'.trans (hdiagnostics.trans hd.symm), ?_⟩
      rw [hir, hir']
      exact congrArg some (Except.ok.inj hresolve)
  | error reports =>
    cases r' with
    | ok ir' => cases hresolve
    | error reports' =>
      cases hresolve
      obtain ⟨hir, hd⟩ := variant_of_error hfresh
      obtain ⟨hir', hd'⟩ := variant_of_error hretry
      exact ⟨by rw [hd, hd', hdiagnostics], by rw [hir, hir']⟩

/-- Leftover attributes can only add to what has to be right. -/
theorem fresh_of_retry {ir' : ShaderIR}
    (hir' : ((closure.variant first).closure.variant second).ir = some ir') :
    ∃ ir, (closure.variant second).ir = some ir := by
  obtain ⟨_, hcircular, hbound⟩ := pruned_of_variant hir'
  have hw' := (closure.variant first).closure.wellFormed_placed second
  have hw := closure.wellFormed_placed second
  have hu := closure.unlinked_placed second
  rw [contains_left, placed_left] at hcircular hbound
  rw [placed_left] at hw'
  have hfewer : ¬ (closure.placed second).Circular closure.components.contains ∧
      (closure.placed second).Bound closure.components.contains := by
    rw [placed_eq]
    refine ShaderIR.resolves_of_fewer (closure.bare_placedWith _ _ _) hw' ?_ hcircular hbound
    exact roots_subset (f := closure.added second.attributes)
      (fun c _ w => closure.isOutput_more first second c w) _
  have hresolve := ShaderIR.resolve_of_not_circular hw hu hfewer.1
  rw [ShaderIR.unboundReports_eq_nil_iff.mpr hfewer.2] at hresolve
  exact ⟨_, (variant_of_ok hresolve).1⟩

theorem fields_of_pruned (hc : c ∈ closure.components.values) {f : String → List (String × String)}
    {asked : List (String × Nat)} {ir : ShaderIR} {isComponent : String → Bool}
    (hp : (closure.placedWith f asked).Pruned isComponent ir) {d : Definition}
    (hd : d ∈ ir.definitions) (hcomponent : d.component = c.name) :
    d.isEntry = (c.attach (f c.name)).isOutput closure.pipeline d.world ∧
      ∃ i, (c.chosen? asked d.world).map Prod.fst = some i ∧
        d.attributes = i.attributes.insertAll (f c.name) := by
  obtain ⟨placed, hlive, rfl⟩ := hp.mem_iff.mp hd
  have hw : (closure.placedWith f asked).WellFormed := ShaderIR.wellFormed_ofComponents _ _ _ _
  have hplaced : placed.component = c.name := hcomponent
  -- linking changes neither of the two
  have hsurvivor := survivor_placedWith hc hlive.mem (hw.live_survivor hlive) hplaced
  exact hsurvivor

/-- A component as the first schedule left it. -/
theorem component_left (hc : c ∈ closure.components.values) (schedule : Schedule) :
    ∃ c' ∈ (closure.variant schedule).closure.components.values, c'.name = c.name ∧
      c'.implementations =
        (c.attach (closure.added schedule.attributes c.name)).implementations := by
  have hfind : (closure.variant schedule).closure.components.unpinned.find? c.name =
      some (c.attach (closure.added schedule.attributes c.name)).unpinned := by
    rw [unpinned_left, Components.find?_unpinned, attributed, Components.find?_attach,
      Components.find?_name hc]
    rfl
  rw [Components.find?_unpinned] at hfind
  obtain ⟨c', hc', hsame⟩ := Option.map_eq_some_iff.mp hfind
  have hname : c'.unpinned.name = c.name := by rw [hsame]; rfl
  have himplementations : c'.unpinned.implementations =
      (c.attach (closure.added schedule.attributes c.name)).unpinned.implementations := by
    rw [hsame]
  exact ⟨c', OrderedMap.mem_values_of_find? hc', hname, himplementations⟩

theorem covered_of_retry {ir : ShaderIR} (hir : (closure.variant second).ir = some ir)
    (hir' : ((closure.variant first).closure.variant second).ir = some ir) :
    closure.OutputsCovered first second ∧ closure.AttributesCovered first second ir := by
  constructor
  · refine outputsCovered_iff.mpr fun c hc w hout => ?_
    obtain ⟨c', hc', hname, himplementations⟩ := component_left hc first
    refine (entry_iff_isOutput hc hir w).mp ?_
    rw [← hname]
    refine (entry_iff_isOutput hc' hir' w).mpr ?_
    rw [added_left, hname]
    rw [Component.attach_append] at hout
    have hpipeline : (closure.variant first).closure.pipeline = closure.pipeline := by
      rw [closure_variant]
    rw [hpipeline, Component.isOutput, Component.attach, himplementations]
    exact hout
  · intro c hc d hd hcomponent i hi
    obtain ⟨hp, _, _⟩ := pruned_of_variant hir
    obtain ⟨hp', _, _⟩ := pruned_of_variant hir'
    rw [placed_left] at hp'
    rw [placed_eq] at hp
    obtain ⟨_, j, hj, hattributes⟩ := fields_of_pruned hc hp hd hcomponent
    obtain ⟨_, j', hj', hattributes'⟩ := fields_of_pruned hc hp' hd hcomponent
    rw [chosen?_eq hc, hi] at hj hj'
    cases hj
    cases hj'
    exact hattributes'.symm.trans hattributes

theorem retry_of_covered {ir : ShaderIR} (hir : (closure.variant second).ir = some ir)
    (hcovered : closure.OutputsCovered first second)
    (hattributes : closure.AttributesCovered first second ir) :
    ((closure.variant first).closure.variant second).ir = some ir := by
  have hbare := (retry_congr hcovered).2
  rw [hir] at hbare
  obtain ⟨ir', hir', hsame⟩ := Option.map_eq_some_iff.mp hbare
  obtain ⟨hp, _, _⟩ := pruned_of_variant hir
  obtain ⟨hp', _, _⟩ := pruned_of_variant hir'
  rw [placed_left] at hp'
  rw [placed_eq] at hp
  have hdefinitions : ir'.definitions = ir.definitions := by
    refine eq_of_map_eq (congrArg ShaderIR.definitions hsame) fun d' hd' d hd hbare => ?_
    obtain ⟨c, hc, hname⟩ := declared_of_variant hir hd
    obtain ⟨hcomponent, hworld, _, _⟩ := Definition.fields_of_bare hbare
    obtain ⟨hentry, i, hi, hadded⟩ := fields_of_pruned hc hp hd hname.symm
    obtain ⟨hentry', i', hi', hadded'⟩ := fields_of_pruned hc hp' hd' (hcomponent.trans hname.symm)
    rw [hworld, hi] at hi'
    cases hi'
    rw [chosen?_eq hc] at hi
    refine Definition.eq_of_bare hbare ?_ ?_
    · rw [hadded', hadded]
      exact hattributes c hc d hd hname.symm i hi
    · rw [hentry', hentry, hworld, Bool.eq_iff_iff]
      exact ⟨outputsCovered_iff.mp hcovered c hc d.world,
        closure.isOutput_more first second c d.world⟩
  rw [hir', ShaderIR.eq_of_bare hsame hdefinitions]

/-- Resolving again on the closure that a first run left, compared with resolving it as it was.
Where the second schedule resolves the original, the retry gives the same variant and the same
complaints iff the attributes that the first schedule left add no output and show in no definition
of the variant. Where it does not, neither does the retry, and if no output is added the complaints
are the same. -/
theorem retry_eq_iff (closure : Closure) (first second : Schedule) :
    let fresh := closure.variant second
    let retry := (closure.variant first).closure.variant second
    (∀ ir, fresh.ir = some ir →
      ((retry.ir = fresh.ir ∧ retry.diagnostics = fresh.diagnostics) ↔
        closure.OutputsCovered first second ∧ closure.AttributesCovered first second ir)) ∧
    (fresh.ir = none → retry.ir = none ∧
      (closure.OutputsCovered first second → retry.diagnostics = fresh.diagnostics)) := by
  intro fresh retry
  refine ⟨fun ir hir => ⟨fun hsame => ?_, fun hcovered => ?_⟩,
    fun hnone => ⟨?_, fun hcovered => ?_⟩⟩
  · exact covered_of_retry hir (hsame.1.trans hir)
  · exact ⟨(retry_of_covered hir hcovered.1 hcovered.2).trans hir.symm,
      (retry_congr hcovered.1).1⟩
  · refine Option.eq_none_iff_forall_ne_some.mpr fun ir' hir' => ?_
    obtain ⟨ir, hir⟩ := fresh_of_retry hir'
    rw [show (closure.variant second).ir = none from hnone] at hir
    cases hir
  · exact (retry_congr hcovered).1

end Closure

/-- A fill that reads itself in its layered form. -/
def fillComponent : Component where
  name := "fill"
  dataType := "vec4"
  aliases := ["fill"]
  constrained := .ofList ["canvas"]
  implementations :=
    [{ alternate := some "layered", worlds := .ofList ["canvas"],
       exported := .ofList ["canvas"], body := .expr (.name "fill" {}) },
      { alternate := some "flat", worlds := .ofList ["canvas"],
        exported := .ofList ["canvas"], body := .expr (.literal "1" {}) }]

/-- An outline that reads itself and that nothing asks for. -/
def outlineComponent : Component where
  name := "outline"
  dataType := "vec4"
  aliases := ["outline"]
  constrained := .ofList ["canvas"]
  implementations := [{ worlds := .ofList ["canvas"], body := .expr (.name "outline" {}) }]

def sketchShader : Closure :=
  Closure.addComponent
    (Closure.addComponent
      { name := "sketch"
        pipeline :=
          { name := "sketch"
            worlds := .ofList [("canvas", { name := "canvas", isAbstract := true })] } }
      fillComponent)
    outlineComponent

/-- Asks for the layered fill, which does not resolve. -/
def layeredSchedule : Schedule where
  choices := .ofList [("fill", [{ world := "canvas", alternate := some "layered" }])]
  attributes := .ofList [("fill", .ofList [("quality", "low")])]

def qualitySchedule : Schedule where
  attributes := .ofList [("fill", .ofList [("quality", "high")])]

/-- Asks for the outline, which does not resolve. -/
def outlineSchedule : Schedule where
  attributes := .ofList [("outline", .ofList [("Pinned", "true")])]

/-- The first schedule fails, and what it leaves is overwritten by the second. -/
theorem retry_eq_iff_sketchShader :
    (sketchShader.variant layeredSchedule).ir = none ∧
    ∃ ir, (sketchShader.variant qualitySchedule).ir = some ir ∧
      ((sketchShader.variant layeredSchedule).closure.variant qualitySchedule).ir = some ir ∧
      ((sketchShader.variant layeredSchedule).closure.variant qualitySchedule).diagnostics =
        (sketchShader.variant qualitySchedule).diagnostics := by
  have hfirst : (sketchShader.variant layeredSchedule).ir = none := by
    rw [← Option.isNone_iff_eq_none, Closure.variant_eq_round]
    decide +kernel
  have hir : (sketchShader.variant qualitySchedule).ir = some ((sketchShader.placed
      qualitySchedule).relink sketchShader.components.contains).prune :=
    Closure.variant_of_round (Option.isNone_iff_eq_none.mp (by decide +kernel))
      (List.isEmpty_iff.mp (by decide +kernel))
  have hunpinned : ∀ c ∈ sketchShader.components.values,
      "Pinned" ∉ (sketchShader.added layeredSchedule.attributes c.name).map Prod.fst := by
    decide +kernel
  have houtputs : sketchShader.OutputsCovered layeredSchedule qualitySchedule :=
    fun c hc hpins => absurd (Closure.mem_added_iff.mpr hpins) (hunpinned c hc)
  have hattributes : sketchShader.AttributesCovered layeredSchedule qualitySchedule
      ((sketchShader.placed qualitySchedule).relink sketchShader.components.contains).prune := by
    show ∀ c ∈ sketchShader.components.values, ∀ d ∈ ShaderIR.definitions _,
      d.component = c.name → ∀ i ∈ c.holder? (sketchShader.selections qualitySchedule c) d.world, _
    decide +kernel
  have hiff := (Closure.retry_eq_iff sketchShader layeredSchedule qualitySchedule).1 _ hir
  obtain ⟨hsame, hdiagnostics⟩ := hiff.mpr ⟨houtputs, hattributes⟩
  exact ⟨hfirst, _, hir, hsame.trans hir, hdiagnostics⟩

/-- A failed run shows in the next one: the outline stays asked for, and its cycle fails a schedule
that says nothing of it. -/
theorem not_retry_unaffected :
    ¬ ∀ (closure : Closure) (first second : Schedule),
      (closure.variant first).ir = none →
      ((closure.variant first).closure.variant second).ir = (closure.variant second).ir ∧
        ((closure.variant first).closure.variant second).diagnostics =
          (closure.variant second).diagnostics := by
  intro h
  have hfirst : (sketchShader.variant outlineSchedule).ir = none := by
    rw [← Option.isNone_iff_eq_none, Closure.variant_eq_round]
    decide +kernel
  have hfresh : (sketchShader.variant {}).ir.isSome = true := by
    rw [Closure.variant_eq_round]
    decide +kernel
  have hretry : ((sketchShader.variant outlineSchedule).closure.variant {}).ir.isSome = false := by
    rw [Closure.closure_variant, Closure.variant_eq_round]
    decide +kernel
  rw [(h sketchShader outlineSchedule {} hfirst).1, hfresh] at hretry
  cases hretry

end ShaderVariants
