import ShaderVariants.Proofs.CanonicalOrder
import ShaderVariants.Proofs.Liveness

/-! # References bind to the nearest survivor upstream

`Leads` is a path of imports between worlds, said of the imports alone. In a pipeline made by edits
it is what `reaches` decides (`Orderable.reaches_iff`), and ranks grow along it
(`Orderable.idxOf_lt`). Binding takes the last world, in the order of the pipeline, of those that
reach the reference and have a survivor (`bind?_eq`). By the two facts that is a world upstream of
the reference, with no other such world on the way (`WellFormed.nearest_of_bind?`), and there is
none only if no world upstream has a survivor (`bind?_eq_none_iff`). -/
namespace ShaderVariants

namespace Pipeline
open ShaderVariants.Graph Relation

/-- One or more imports lead from one world to another. -/
def Leads (p : Pipeline) : String → String → Prop :=
  TransGen fun u w => ∃ i ∈ p.imports, i.source = u ∧ i.target = w

/-- Both worlds have a rank, and the first has the smaller one. -/
def Precedes (p : Pipeline) (u w : String) : Prop :=
  ∃ r s, p.rank? u = some r ∧ p.rank? w = some s ∧ r < s

theorem rank?_eq_some {p : Pipeline} {w : String} (hw : w ∈ p.order) :
    p.rank? w = some (p.order.idxOf w) := by
  obtain ⟨r, hr⟩ := Option.isSome_iff_exists.mp (List.isSome_idxOf?.mpr hw)
  rw [rank?, List.idxOf_eq_getD_idxOf?, hr, Option.getD_some]

namespace Orderable
variable {p : Pipeline} {u w : String}

theorem mem_order (h : p.Orderable) : w ∈ p.order ↔ w ∈ p.worlds.keys :=
  h.isOrder.worlds.mem_iff

theorem declared_of_leads (h : p.Orderable) (hl : p.Leads u w) :
    u ∈ p.worlds.keys ∧ w ∈ p.worlds.keys := by
  obtain ⟨_, ⟨i, hi, rfl, _⟩, _⟩ := TransGen.head'_iff.mp hl
  obtain ⟨_, _, j, hj, _, rfl⟩ := TransGen.tail'_iff.mp hl
  exact ⟨(h.declared i hi).1, (h.declared j hj).2⟩

/-- Imports are between declared worlds, so the search for a path misses none. -/
theorem edge_iff (h : p.Orderable) :
    Edge p.feeds p.worlds.keys u w ↔ ∃ i ∈ p.imports, i.source = u ∧ i.target = w := by
  rw [Edge, mem_feeds, mem_sources]
  refine and_iff_left_of_imp fun hi => ?_
  obtain ⟨i, hi, _, rfl⟩ := hi
  exact (h.declared i hi).2

theorem reaches_iff (h : p.Orderable) :
    p.reaches u w = true ↔ u ∈ p.worlds.keys ∧ (w = u ∨ p.Leads u w) := by
  rw [Pipeline.reaches_iff, reflTransGen_iff_eq_or_transGen]
  have hedge : Edge p.feeds p.worlds.keys =
      fun u w => ∃ i ∈ p.imports, i.source = u ∧ i.target = w := by
    funext u w
    exact propext h.edge_iff
  rw [hedge, Leads]

theorem idxOf_lt (h : p.Orderable) (hl : p.Leads u w) : p.order.idxOf u < p.order.idxOf w := by
  have hstep : ∀ {u w}, (∃ i ∈ p.imports, i.source = u ∧ i.target = w) →
      p.order.idxOf u < p.order.idxOf w := by
    intro u w hi
    obtain ⟨i, hi, rfl, rfl⟩ := hi
    exact h.isOrder.imports i hi
  induction hl with
  | single hi => exact hstep hi
  | tail _ hi ih => exact Nat.lt_trans ih (hstep hi)

theorem precedes_of_idxOf_lt (h : p.Orderable) (hu : u ∈ p.worlds.keys) (hw : w ∈ p.worlds.keys)
    (hlt : p.order.idxOf u < p.order.idxOf w) : p.Precedes u w :=
  ⟨_, _, rank?_eq_some (h.mem_order.mpr hu), rank?_eq_some (h.mem_order.mpr hw), hlt⟩

end Orderable

/-- Behind the last world that passes a test there is no other that does. -/
theorem idxOf_lt_of_getLast? {p : Pipeline} {q : String → Bool} {u v : String}
    (hu : (p.order.filter q).getLast? = some u) (hv : v ∈ p.order) (hq : q v = true)
    (hne : v ≠ u) : p.order.idxOf v < p.order.idxOf u := by
  obtain ⟨init, hinit⟩ := List.getLast?_eq_some_iff.mp hu
  have hpairs := (pairwise_idxOf p.nodup_order).sublist (List.filter_sublist (p := q))
  rw [hinit, List.pairwise_append] at hpairs
  have hmem : v ∈ init ++ [u] := hinit ▸ List.mem_filter.mpr ⟨hv, hq⟩
  rcases List.mem_append.mp hmem with hv | hv
  · exact hpairs.2.2 v hv u List.mem_cons_self
  · exact absurd (List.mem_singleton.mp hv) hne

end Pipeline

namespace ShaderIR

/-! ## Editing a representation -/

inductive Edit where
  | add (d : Definition)
  | install (id : Nat)
  /-- Whatever is changed, a definition stays in its slot. -/
  | change (id : Nat) (f : Definition → Definition)
  | relink (isComponent : String → Bool)
  | prune
  | remove (p : Definition → Bool)

def edit (ir : ShaderIR) : Edit → ShaderIR
  | .add d => ir.add d
  | .install id => ir.install id
  | .change id f =>
    ir.modify id fun d => { f d with id := d.id, component := d.component, world := d.world }
  | .relink isComponent => ir.relink isComponent
  | .prune => ir.prune
  | .remove p => ir.remove p

theorem WellFormed.edit {ir : ShaderIR} (h : ir.WellFormed) (e : Edit) :
    (ir.edit e).WellFormed := by
  cases e with
  | add d => exact h.add d
  | install id => exact h.install id
  | change id f =>
    refine h.mapDefinitions ?_ ?_ ?_ <;> intro d <;> split <;> rfl
  | relink isComponent => exact h.relink isComponent
  | prune => exact h.prune
  | remove p => exact h.remove p

theorem pipeline_edit (ir : ShaderIR) (e : Edit) : (ir.edit e).pipeline = ir.pipeline := by
  cases e with
  | install id =>
    show (ir.install id).pipeline = ir.pipeline
    unfold install
    split <;> rfl
  | prune => exact pipeline_prune ir
  | add | change | relink | remove => rfl

/-- The index stays in step with the definitions through any edits, and the pipeline is not
touched. -/
theorem wellFormed_edits (shader : String) (pipeline : Pipeline) (edits : List Edit) :
    (edits.foldl edit { shader, pipeline }).WellFormed ∧
      (edits.foldl edit { shader, pipeline }).pipeline = pipeline := by
  refine List.foldlRecOn (motive := fun ir => ir.WellFormed ∧ ir.pipeline = pipeline) edits edit
    ⟨wellFormed_empty shader pipeline, rfl⟩ fun ir hir e _ => ?_
  exact ⟨hir.1.edit e, (ir.pipeline_edit e).trans hir.2⟩

/-! ## The nearest survivor -/

/-- A survivor of a component upstream of a world. Every other one is of a lower rank, and imports
do not lead on to it. -/
structure Nearest (ir : ShaderIR) (c w : String) (d : Definition) : Prop where
  survivor : ir.survivor? c d.world = some d
  upstream : ir.pipeline.Leads d.world w
  precedes : ir.pipeline.Precedes d.world w
  others : ∀ v ≠ d.world, (ir.survivor? c v).isSome = true → ir.pipeline.Leads v w →
    ¬ ir.pipeline.Leads d.world v ∧ ir.pipeline.Precedes v d.world

/-- The worlds that binding has to choose from, where the own world has no survivor. -/
theorem feeds_iff {ir : ShaderIR} {c w : String} (hp : ir.pipeline.Orderable)
    (hw : ir.survivorId? c w = none) (u : String) :
    ((ir.survivorId? c u).isSome && ir.pipeline.reaches u w) = true ↔
      ir.pipeline.Leads u w ∧ (ir.survivorId? c u).isSome = true := by
  rw [Bool.and_eq_true, hp.reaches_iff]
  constructor
  · rintro ⟨hs, _, rfl | hl⟩
    · simp [hw] at hs
    · exact ⟨hl, hs⟩
  · rintro ⟨hl, hs⟩
    exact ⟨hs, (hp.declared_of_leads hl).1, Or.inr hl⟩

namespace WellFormed
variable {ir : ShaderIR} {c w : String}

theorem survivor?_eq_some_iff (h : ir.WellFormed) {d : Definition} :
    ir.survivor? c w = some d ↔
      ir.survivorId? c w = some d.id ∧ d ∈ ir.definitions ∧ d.component = c ∧ d.world = w := by
  rw [survivor?, Option.bind_eq_some_iff]
  constructor
  · intro hs
    obtain ⟨id, hs, hd⟩ := hs
    obtain ⟨hmem, rfl⟩ := h.definition?_iff.mp hd
    obtain ⟨e, he, hid, hslot⟩ := h.indexed c w d.id hs
    obtain rfl := h.eq_of_id he hmem hid
    exact ⟨hs, hmem, hslot⟩
  · intro hs
    exact ⟨d.id, hs.1, h.definition?_iff.mpr ⟨hs.2.1, rfl⟩⟩

theorem isSome_survivor? (h : ir.WellFormed) :
    (ir.survivor? c w).isSome = (ir.survivorId? c w).isSome := by
  cases hs : ir.survivorId? c w with
  | none => simp [survivor?, hs]
  | some id =>
    obtain ⟨d, hd, rfl, hslot⟩ := h.indexed c w id hs
    rw [h.survivor?_eq_some_iff.mpr ⟨hs, hd, hslot⟩]
    rfl

theorem survivor?_eq_none_iff (h : ir.WellFormed) :
    ir.survivor? c w = none ↔ ir.survivorId? c w = none := by
  rw [← Option.isNone_iff_eq_none, ← Option.isNone_iff_eq_none, ← Option.not_isSome,
    ← Option.not_isSome, h.isSome_survivor?]

/-- What a reference binds to when its own world has no survivor. -/
theorem nearest_of_bind? (h : ir.WellFormed) (hp : ir.pipeline.Orderable) {id : Nat}
    (hw : ir.survivorId? c w = none) (hb : ir.bind? c w = some id) :
    ∃ d, ir.definition? id = some d ∧ ir.Nearest c w d := by
  rw [bind?_eq, hw] at hb
  obtain ⟨u, hlast, hs⟩ := Option.bind_eq_some_iff.mp hb
  have hl := ((feeds_iff hp hw u).mp (List.mem_filter.mp (List.mem_of_getLast? hlast)).2).1
  obtain ⟨hu, hdeclared⟩ := hp.declared_of_leads hl
  obtain ⟨d, hd, rfl, rfl, rfl⟩ := h.indexed c u id hs
  refine ⟨d, h.definition?_iff.mpr ⟨hd, rfl⟩, ?_, hl, ?_, ?_⟩
  · exact h.survivor?_eq_some_iff.mpr ⟨hs, hd, rfl, rfl⟩
  · exact hp.precedes_of_idxOf_lt hu hdeclared (hp.idxOf_lt hl)
  · intro v hne hv hvw
    obtain ⟨hkey, _⟩ := hp.declared_of_leads hvw
    have hpass := (feeds_iff hp hw v).mpr ⟨hvw, h.isSome_survivor? ▸ hv⟩
    have hlt := Pipeline.idxOf_lt_of_getLast? hlast (hp.mem_order.mpr hkey) hpass hne
    -- a path on to `v` would raise the rank
    exact ⟨fun hon => Nat.lt_asymm (hp.idxOf_lt hon) hlt, hp.precedes_of_idxOf_lt hkey hu hlt⟩

end WellFormed

/-- A reference binds to nothing only if no world upstream has a survivor. -/
theorem bind?_eq_none_iff {ir : ShaderIR} {c w : String} (hp : ir.pipeline.Orderable) :
    ir.bind? c w = none ↔
      ir.survivorId? c w = none ∧ ∀ u, ir.pipeline.Leads u w → ir.survivorId? c u = none := by
  rw [bind?_eq]
  cases hw : ir.survivorId? c w with
  | some id => simp
  | none =>
    rw [and_iff_right rfl]
    cases hlast : (ir.pipeline.order.filter fun u =>
        (ir.survivorId? c u).isSome && ir.pipeline.reaches u w).getLast? with
    | some v =>
      obtain ⟨hl, hs⟩ := (feeds_iff hp hw v).mp
        (List.mem_filter.mp (List.mem_of_getLast? hlast)).2
      rw [Option.isSome_iff_ne_none] at hs
      exact iff_of_false hs fun hnone => hs (hnone v hl)
    | none =>
      refine iff_of_true rfl fun u hl => ?_
      have hnil := List.filter_eq_nil_iff.mp (List.getLast?_eq_none_iff.mp hlast)
      have hmem := hp.mem_order.mpr (hp.declared_of_leads hl).1
      refine Option.not_isSome_iff_eq_none.mp fun hs => ?_
      exact hnil u hmem ((feeds_iff hp hw u).mpr ⟨hl, hs⟩)

/-- However the pipeline and the representation were made, a reference binds to the survivor in its
own world, or else to the nearest one upstream. It binds to nothing only where there is neither.
Into a world that is not declared nothing leads. -/
theorem bind?_nearest (name shader : String) (worlds : List Pipeline.Edit) (edits : List Edit)
    (c w : String) :
    let ir := edits.foldl edit { shader, pipeline := worlds.foldl Pipeline.edit { name } }
    (∀ d, ir.survivor? c w = some d → ir.bind? c w = some d.id) ∧
    (ir.survivor? c w = none → ∀ id, ir.bind? c w = some id →
      ∃ d, ir.definition? id = some d ∧ d.world ≠ w ∧ ir.Nearest c w d) ∧
    (ir.bind? c w = none ↔
      ir.survivor? c w = none ∧ ∀ u, ir.pipeline.Leads u w → ir.survivor? c u = none) ∧
    (w ∉ ir.pipeline.worlds.keys → ∀ u, ¬ ir.pipeline.Leads u w) := by
  intro ir
  have hedits := wellFormed_edits shader (worlds.foldl Pipeline.edit { name }) edits
  have h : ir.WellFormed := hedits.1
  have hp : ir.pipeline.Orderable := hedits.2 ▸ Pipeline.orderable_edits name worlds
  refine ⟨fun d hd => ?_, fun hnone id hb => ?_, ?_, ?_⟩
  · rw [bind?_eq, (h.survivor?_eq_some_iff.mp hd).1]
  · obtain ⟨d, hd, hnear⟩ := h.nearest_of_bind? hp (h.survivor?_eq_none_iff.mp hnone) hb
    refine ⟨d, hd, fun he => ?_, hnear⟩
    have hs := hnear.survivor
    rw [he, hnone] at hs
    cases hs
  · simp only [h.survivor?_eq_none_iff]
    exact bind?_eq_none_iff hp
  · exact fun hw u hl => hw (hp.declared_of_leads hl).2

end ShaderIR

end ShaderVariants
